import SegregatedFit.Proofs.Client.Layout

/-!
The allocator as a ledger. To a client the allocator is a map from live handles to byte arrays. Requests
act on the map as `Ledger.Step` says, and nothing happens to the entries that they are not about.
-/

namespace SegregatedFit

abbrev Ledger := Nat → Option ByteArray

namespace Ledger

def put (l : Ledger) (b : Nat) (content : ByteArray) : Ledger :=
  fun b' => if b' = b then some content else l b'

def drop (l : Ledger) (b : Nat) : Ledger := fun b' => if b' = b then none else l b'

-- What a request may do to a ledger. A new handle is not live yet, what fresh bytes hold is left open,
-- and a resized entry begins with as much of its old content as was asked for.
inductive Step (l : Ledger) : Request → Option Block → Ledger → Prop
  | decline {r : Request} (hr : (∃ size, r = .allocate size ∨ ∃ b, 0 < size ∧ r = .reallocate b size) ∨
      r = .free none ∨ r = .reallocate none 0) : Step l r none l
  | allocate {r : Request} {size : Nat} {b : Nat} {content : ByteArray}
      (hr : r = .allocate size ∨ r = .reallocate none size) (hfresh : l b = none)
      (hroom : size ≤ content.size) : Step l r (some b) (l.put b content)
  | free {r : Request} {b : Nat} {content : ByteArray}
      (hr : r = .free (some b) ∨ r = .reallocate (some b) 0) (hlive : l b = some content) :
      Step l r none (l.drop b)
  | reallocate {size b b' : Nat} {content content' : ByteArray} (hlive : l b = some content)
      (hfresh : b' = b ∨ l b' = none) (hroom : size ≤ content'.size)
      (hkept : ∀ k < min content.size size, content'[k]? = content[k]?) :
      Step l (.reallocate (some b) size) (some b') ((l.drop b).put b' content')
  | write {b : Nat} {source content content' : ByteArray} (hlive : l b = some content)
      (hroom : source.size ≤ content.size) (hsize : content'.size = content.size)
      (hbytes : ∀ k, content'[k]? = if k < source.size then source[k]? else content[k]?) :
      Step l (.write b source) none (l.put b content')

-- The ledgers that requests lead to from the empty one.
inductive Reachable : Ledger → Prop
  | empty : Reachable fun _ => none
  | step {l l' : Ledger} {r : Request} {answer : Option Block} (hreachable : Reachable l)
      (hstep : Step l r answer l') : Reachable l'

end Ledger

-- Where the words that are no payload begin: the tags of the two sentinels and of the blocks `bs`.
def Heap.tagWords (h : Heap) (bs : List BlockInfo) : List Nat :=
  [h.prologue - 4, h.prologue, h.memory.size - 4] ++
    bs.flatMap fun i => [i.offset - 4, i.offset + i.size - 8]

namespace Client

variable {ρ : Type} [Reserve ρ] {c c' : Client ρ} {bs bs' : List BlockInfo} {ls ls' : Lists} {r : Request}
  {answer : Option Block}

def ledger (c : Client ρ) : Ledger :=
  fun b => if b ∈ c.live then (c.allocator.payload b).toOption else none

section

omit [Reserve ρ]

theorem Inv.ledger_eq_none (hinv : c.Inv bs ls) {b : Nat} (hb : ∀ size, ⟨b, size, true⟩ ∉ bs) :
    c.ledger b = none := by
  have hnot : b ∉ c.live := fun hmem => by
    obtain ⟨size, hmem⟩ := (hinv.live b).mp hmem
    exact hb size hmem
  simp [ledger, hnot]

theorem Inv.ledger_eq_some (hinv : c.Inv bs ls) {b size : Nat} (hb : ⟨b, size, true⟩ ∈ bs) :
    ∃ content, c.ledger b = some content ∧ content.size = size - 8 ∧
      ∀ k < size - 8, content[k]? = c.allocator.heap.memory.bytes[b + k]? := by
  obtain ⟨content, hpayload, hsize, hbytes⟩ := Heap.payload_spec hinv.sound hb
  have hlive := (hinv.live b).mpr ⟨size, hb⟩
  refine ⟨content, ?_, hsize, hbytes⟩
  simp [ledger, hlive, Allocator.payload, hpayload, Except.toOption]

-- A spared handle keeps its payload.
theorem Inv.payload_eq (hinv : c.Inv bs ls) (hinv' : c'.Inv bs' ls') {own : List Nat} {b : Nat}
    (hspares : Spares own c.allocator.heap.memory c'.allocator.heap.memory bs bs') (hb : b ∉ own)
    (hlive : b ∈ c.live) : c'.allocator.payload b = c.allocator.payload b ∧
      c'.allocator.usableSize b = c.allocator.usableSize b ∧ b ∈ c'.live := by
  obtain ⟨size, hmem⟩ := (hinv.live b).mp hlive
  have hmem' := (hspares.kept _ rfl hb).mpr hmem
  refine ⟨Heap.payload_eq_of_same hinv.sound hmem hinv'.sound hmem' (hspares.payload _ hmem rfl hb), ?_,
    (hinv'.live b).mpr ⟨size, hmem'⟩⟩
  exact (hinv'.sound.laid.usableSize_eq hmem').trans (hinv.sound.laid.usableSize_eq hmem).symm

theorem Inv.ledger_eq (hinv : c.Inv bs ls) (hinv' : c'.Inv bs' ls') {own : List Nat} {b : Nat}
    (hspares : Spares own c.allocator.heap.memory c'.allocator.heap.memory bs bs') (hb : b ∉ own) :
    c'.ledger b = c.ledger b := by
  by_cases hlive : b ∈ c.live
  · obtain ⟨hpayload, -, hlive'⟩ := hinv.payload_eq hinv' hspares hb hlive
    simp [ledger, hlive, hlive', hpayload]
  · have hlive' : b ∉ c'.live := fun hmem =>
      hlive ((hinv.live b).mpr ((hspares.handle_iff hb).mp ((hinv'.live b).mp hmem)))
    simp [ledger, hlive, hlive']

theorem Inv.ledger_eq_self (hinv : c.Inv bs ls) (hinv' : c'.Inv bs ls')
    (hheap : c'.allocator.heap = c.allocator.heap) : c'.ledger = c.ledger := by
  have hspares : Spares [] c.allocator.heap.memory c'.allocator.heap.memory bs bs := by
    rw [hheap]
    exact .refl _ _ _
  exact funext fun b => hinv.ledger_eq hinv' hspares List.not_mem_nil

theorem ledger_eq_put {q : Nat} {content : ByteArray} (hq : c'.ledger q = some content)
    (hother : ∀ b, b ≠ q → c'.ledger b = c.ledger b) : c'.ledger = c.ledger.put q content := by
  funext b
  by_cases hb : b = q
  · simp [Ledger.put, hb, hq]
  · simp [Ledger.put, hb, hother b hb]

theorem ledger_eq_drop {p : Nat} (hp : c'.ledger p = none)
    (hother : ∀ b, b ≠ p → c'.ledger b = c.ledger b) : c'.ledger = c.ledger.drop p := by
  funext b
  by_cases hb : b = p
  · simp [Ledger.drop, hb, hp]
  · simp [Ledger.drop, hb, hother b hb]

-- A resized entry leaves its handle and turns up under the one that is answered.
theorem Inv.ledger_resize {h' : Heap} {xs ys : List BlockInfo} {b q size total need : Nat}
    (hinv : c.Inv bs ls) (hinv' : c'.Inv bs' ls') (hheap : c'.allocator.heap = h')
    (hsplit : bs = xs ++ ⟨b, total, true⟩ :: ys) (hneed : blockSizeFor size = some need)
    (hresizing : Allocator.Resizing c.allocator.heap c.allocator.chunk.val xs b total ys ls size need
      (some q) h' bs' ls')
    (hmoved : q ≠ b → c.ledger q = none ∧ c'.ledger b = none)
    (hother : ∀ b', b' ≠ b → b' ≠ q → c'.ledger b' = c.ledger b') :
    Ledger.Step c.ledger (.reallocate (some b) size) (some q) c'.ledger := by
  obtain ⟨total', hq, hroom, hkept⟩ := hresizing.content hneed
  have hb : ⟨b, total, true⟩ ∈ bs := hsplit ▸ List.mem_append_right _ List.mem_cons_self
  obtain ⟨content, hcontent, hsize, hbytes⟩ := hinv.ledger_eq_some hb
  obtain ⟨content', hcontent', hsize', hbytes'⟩ := hinv'.ledger_eq_some hq
  have hput : c'.ledger = (c.ledger.drop b).put q content' := by
    funext b'
    by_cases hb' : b' = q
    · simp [Ledger.put, hb', hcontent']
    · by_cases hb'' : b' = b
      · subst hb''
        simp [Ledger.put, Ledger.drop, hb', (hmoved (Ne.symm hb')).2]
      · simp [Ledger.put, Ledger.drop, hb', hb'', hother b' hb'' hb']
  have hfresh : q = b ∨ c.ledger q = none := by
    by_cases hq : q = b
    · exact .inl hq
    · exact .inr (hmoved hq).1
  rw [hput]
  apply Ledger.Step.reallocate hcontent hfresh (by omega)
  intro k hk
  rw [hbytes k (by omega), hbytes' k (by omega), hheap, hkept k (by omega)]

-- Each kind of change is a step of the ledger.
theorem Inv.ledger_step {h' : Heap} (hinv : c.Inv bs ls) (hinv' : c'.Inv bs' ls')
    (hheap : c'.allocator.heap = h')
    (hchange : Change c.allocator.heap c.allocator.chunk.val bs ls r answer h' bs' ls') :
    Ledger.Step c.ledger r answer c'.ledger := by
  have hspares := (hchange.becomes hinv.sound).spares
  rw [← hheap] at hspares
  have hother : ∀ b, b ∉ r.target.toList ++ answer.toList → c'.ledger b = c.ledger b :=
    fun b hb => hinv.ledger_eq hinv' hspares hb
  have hfresh : ∀ q ∈ answer, r.target ≠ some q → c.ledger q = none := by
    rintro q rfl hq
    exact hinv.ledger_eq_none (hchange.fresh hq)
  have hlive := hchange.live hinv.sound hinv.live
  cases hchange with
  | decline hr =>
      rw [hinv.ledger_eq_self hinv' hheap]
      exact .decline hr
  | allot q size hr hallot =>
      obtain ⟨total, hq, hroom⟩ := hallot.block
      obtain ⟨content, hcontent, hsize, -⟩ := hinv'.ledger_eq_some hq
      rw [ledger_eq_put hcontent fun b hb => hother b ?_]
      · exact .allocate hr (hinv.ledger_eq_none fun size hmem => hallot.fresh _ hmem rfl rfl) (by omega)
      · rcases hr with rfl | rfl <;> simpa [Request.target] using hb
  | release z hr hsite hbecomes =>
      have hz : ⟨z.offset, z.size, true⟩ ∈ bs := by
        rw [← hsite.1]
        simp [Site.blocks]
      obtain ⟨content, hcontent, -⟩ := hinv.ledger_eq_some hz
      have hlaid : Laid _ _ (z.blocks true) := hsite.1 ▸ hinv.sound.laid
      have hgone := hinv'.ledger_eq_none (Site.not_handle_merge hlaid)
      rw [ledger_eq_drop hgone fun b hb => hother b ?_]
      · exact .free hr hcontent
      · rcases hr with rfl | rfl <;> simpa [Request.target] using hb
  | resize b size hsize hneed hsplit hresizing =>
      cases answer with
      | none =>
          cases hresizing with
          | refuse =>
              subst hsplit
              rw [hinv.ledger_eq_self hinv' hheap]
              exact .decline (.inl ⟨size, .inr ⟨some b, hsize, rfl⟩⟩)
      | some q =>
          have hmoved : q ≠ b → c.ledger q = none ∧ c'.ledger b = none := by
            intro hne
            refine ⟨hfresh q rfl (by simpa [Request.target] using Ne.symm hne), ?_⟩
            apply hinv'.ledger_eq_none
            intro size' hmem
            have hmem := (hlive b).mpr ⟨size', hmem⟩
            simp [Request.liveAfter, Ne.symm hne] at hmem
          apply hinv.ledger_resize hinv' hheap hsplit hneed hresizing hmoved
          intro b' hb' hq
          exact hother b' (by simp [Request.target, hb', hq])
  | write b source hmem hfits hbecomes hbytes hsame =>
      obtain ⟨content, hcontent, hsize, hold⟩ := hinv.ledger_eq_some hmem
      obtain ⟨content', hcontent', hsize', hnew⟩ := hinv'.ledger_eq_some hmem
      rw [ledger_eq_put hcontent' fun b hb => hother b (by simpa [Request.target] using hb)]
      apply Ledger.Step.write hcontent (by omega) (by omega)
      intro k
      rw [hheap] at hnew
      by_cases hk : k < source.size
      · rw [if_pos hk, hnew k (by omega), hbytes k hk]
      · rw [if_neg hk]
        by_cases hend : k < content.size
        · rw [hnew k (by omega), hold k (by omega), hsame (b + k) (by omega)]
        · rw [getElem?_neg content' k (by omega), getElem?_neg content k hend]

end

-- The payload of the live handle `b` are the `usable` bytes from `b` on.
def Spans (c : Client ρ) (b usable : Nat) : Prop :=
  b ∈ c.live ∧ c.allocator.usableSize b = .ok usable

-- How the entries of the ledger lie in the heap.
structure Geometry (c : Client ρ) : Prop where
  entries : ∀ b ∈ c.live, ∃ usable content, c.Spans b usable ∧ c.ledger b = some content ∧
    content.size = usable
  inside : ∀ b usable, c.Spans b usable →
    b % alignment = 0 ∧ c.allocator.heap.prologue + 8 ≤ b ∧
      b + usable ≤ c.allocator.heap.memory.size
  disjoint : ∀ b usable b' usable', c.Spans b usable → c.Spans b' usable' → b ≠ b' →
    b + usable ≤ b' ∨ b' + usable' ≤ b
  words : ∃ bs, c.allocator.heap.blocks = .ok bs ∧ ∀ b usable, c.Spans b usable →
    ∀ w ∈ c.allocator.heap.tagWords bs, w + 4 ≤ b ∨ b + usable ≤ w

omit [Reserve ρ] in
theorem Inv.exists_of_spans (hinv : c.Inv bs ls) {b usable : Nat} (hspans : c.Spans b usable) :
    ∃ size, ⟨b, size, true⟩ ∈ bs ∧ usable = size - 8 := by
  obtain ⟨hlive, husable⟩ := hspans
  obtain ⟨size, hmem⟩ := (hinv.live b).mp hlive
  have hsize : c.allocator.usableSize b = .ok (size - 8) := hinv.sound.laid.usableSize_eq hmem
  exact ⟨size, hmem, Except.ok.inj (husable.symm.trans hsize)⟩

omit [Reserve ρ] in
theorem Inv.geometry (hinv : c.Inv bs ls) : c.Geometry := by
  have hlaid := hinv.sound.laid
  refine ⟨?_, ?_, ?_, bs, Heap.blocks_eq hlaid, ?_⟩
  · intro b hb
    obtain ⟨size, hmem⟩ := (hinv.live b).mp hb
    obtain ⟨content, hcontent, hsize, -⟩ := hinv.ledger_eq_some hmem
    exact ⟨size - 8, content, ⟨hb, hlaid.usableSize_eq hmem⟩, hcontent, hsize⟩
  · intro b usable hspans
    obtain ⟨size, hmem, rfl⟩ := hinv.exists_of_spans hspans
    have hbounds := hlaid.mem_bounds hmem
    dsimp only at hbounds
    exact ⟨hbounds.2.2.1, hbounds.1, by omega⟩
  · intro b usable b' usable' hspans hspans' hne
    obtain ⟨size, hmem, rfl⟩ := hinv.exists_of_spans hspans
    obtain ⟨size', hmem', rfl⟩ := hinv.exists_of_spans hspans'
    have hdisjoint := hlaid.tiles.disjoint hmem hmem' (by simp [hne])
    dsimp only at hdisjoint
    omega
  · intro b usable hspans w hw
    obtain ⟨size, hmem, rfl⟩ := hinv.exists_of_spans hspans
    have hbounds := hlaid.mem_bounds hmem
    simp only [Heap.tagWords, List.mem_append, List.mem_cons, List.not_mem_nil, or_false,
      List.mem_flatMap] at hw
    rcases hw with hw | ⟨i, hi, hw⟩
    · dsimp only at hbounds
      omega
    · have hother := hlaid.mem_bounds hi
      by_cases hself : i = ⟨b, size, true⟩
      · subst hself
        dsimp only at *
        omega
      · have hdisjoint := hlaid.tiles.disjoint hi hmem hself
        dsimp only at *
        omega

-- A request that is admissible is answered, and it has its effect on the ledger. The handles that it is
-- not about stay live and keep their payloads.
theorem Inv.exists_refined_step (hinv : c.Inv bs ls) (hadmits : c.Admits r) :
    ∃ answer c', c.step r = .ok (answer, c') ∧ Ledger.Step c.ledger r answer c'.ledger ∧
      (∀ q ∈ answer, r.target ≠ some q → q ∉ c.live) ∧
      ∀ b ∈ c.live, r.target ≠ some b → c'.allocator.payload b = c.allocator.payload b ∧
        c'.allocator.usableSize b = c.allocator.usableSize b ∧ b ∈ c'.live := by
  obtain ⟨answer, c', bs', ls', hstep, hinv', hchange⟩ := hinv.exists_step hadmits
  have hfresh : ∀ q ∈ answer, r.target ≠ some q → q ∉ c.live := by
    rintro q rfl hq hlive
    obtain ⟨size, hmem⟩ := (hinv.live q).mp hlive
    exact hchange.fresh hq size hmem
  refine ⟨answer, c', hstep, hinv.ledger_step hinv' rfl hchange, hfresh, ?_⟩
  intro b hb hne
  refine hinv.payload_eq hinv' (hchange.becomes hinv.sound).spares ?_ hb
  simp only [List.mem_append, Option.mem_toList, not_or]
  exact ⟨hne, fun hmem => hfresh b hmem hne hb⟩

theorem Reachable.ledger (hreachable : Reachable c) : c.ledger.Reachable := by
  induction hreachable with
  | init haligned hinit => exact .empty
  | step hreachable hadmits hstep ih =>
      obtain ⟨bs, ls, hinv⟩ := hreachable.exists_inv
      obtain ⟨bs', ls', hinv', hchange⟩ := hinv.of_step hadmits hstep
      exact ih.step (hinv.ledger_step hinv' rfl hchange)

-- The allocator refines the ledger, in every run over every region.
theorem refines_ledger (hreachable : c.Reachable) : c.Geometry ∧ c.ledger.Reachable ∧
    ∀ r, c.Admits r → ∃ answer c', c.step r = .ok (answer, c') ∧
      Ledger.Step c.ledger r answer c'.ledger ∧ (∀ q ∈ answer, r.target ≠ some q → q ∉ c.live) ∧
      ∀ b ∈ c.live, r.target ≠ some b → c'.allocator.payload b = c.allocator.payload b ∧
        c'.allocator.usableSize b = c.allocator.usableSize b ∧ b ∈ c'.live := by
  obtain ⟨bs, ls, hinv⟩ := hreachable.exists_inv
  exact ⟨hinv.geometry, hreachable.ledger, fun r hadmits => hinv.exists_refined_step hadmits⟩

theorem refines_ledger_arena : ∃ c : Client Arena, c.Reachable ∧ c.live = {32} ∧ c.Geometry ∧
    ∃ answer c', c.step (.allocate 8) = .ok (answer, c') ∧
      c'.allocator.payload 32 = c.allocator.payload 32 := by
  obtain ⟨c, hreachable, hlive, -⟩ := exists_reachable_arena
  obtain ⟨hgeometry, -, hstep⟩ := refines_ledger hreachable
  obtain ⟨answer, c', hrun, -, -, hother⟩ := hstep (.allocate 8) ⟨by simp [Request.target], trivial⟩
  exact ⟨c, hreachable, hlive, hgeometry, answer, c', hrun,
    (hother 32 (by simp [hlive]) (by simp [Request.target])).1⟩

end Client

end SegregatedFit
