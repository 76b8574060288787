import SegregatedFit.Proofs.Client.Ledger
import SegregatedFit.Proofs.Client.Measure
import SegregatedFit.Proofs.Memory.Pattern
import SegregatedFit.Proofs.Region.FixedBase

/-!
Clients among others. Whoever keeps off the blocks of the others finds in its own blocks what it has
written there, and the others find what they have written in theirs.
-/

namespace SegregatedFit

namespace Ledger.Step

variable {l l' : Ledger} {answer : Option Block} {b size : Nat} {source : ByteArray}

theorem of_allocate (hstep : Step l (.allocate size) answer l') : (answer = none ∧ l' = l) ∨
    ∃ b content, answer = some b ∧ l b = none ∧ size ≤ content.size ∧ l' = l.put b content := by
  cases hstep with
  | decline hr => exact .inl ⟨rfl, rfl⟩
  | allocate hr hfresh hroom =>
      rcases hr with hr | hr <;> cases hr
      exact .inr ⟨_, _, rfl, hfresh, hroom, rfl⟩
  | free hr hlive => simp at hr

theorem of_free (hstep : Step l (.free (some b)) answer l') : answer = none ∧ l' = l.drop b := by
  cases hstep with
  | decline hr => simp at hr
  | allocate hr hfresh hroom => simp at hr
  | free hr hlive =>
      rcases hr with hr | hr <;> cases hr
      exact ⟨rfl, rfl⟩

theorem of_reallocate (hsize : 0 < size) (hstep : Step l (.reallocate (some b) size) answer l') :
    (answer = none ∧ l' = l) ∨ ∃ q content content', answer = some q ∧ l b = some content ∧
      (q = b ∨ l q = none) ∧ size ≤ content'.size ∧
      (∀ k < min content.size size, content'[k]? = content[k]?) ∧ l' = (l.drop b).put q content' := by
  cases hstep with
  | decline hr => exact .inl ⟨rfl, rfl⟩
  | allocate hr hfresh hroom => simp at hr
  | free hr hlive =>
      rcases hr with hr | hr <;> cases hr
      exact absurd hsize (Nat.lt_irrefl 0)
  | reallocate hlive hfresh hroom hkept =>
      exact .inr ⟨_, _, _, rfl, hlive, hfresh, hroom, hkept, rfl⟩

theorem of_write (hstep : Step l (.write b source) answer l') : answer = none ∧
    ∃ content content', l b = some content ∧ content'.size = content.size ∧
      (∀ k < source.size, content'[k]? = source[k]?) ∧ l' = l.put b content' := by
  cases hstep with
  | decline hr => simp at hr
  | allocate hr hfresh hroom => simp at hr
  | free hr hlive => simp at hr
  | write hlive hroom hsize hbytes =>
      exact ⟨rfl, _, _, hlive, hsize, fun k hk => (hbytes k).trans (if_pos hk), rfl⟩

end Ledger.Step

variable {ρ : Type} [Reserve ρ]

-- From `a` to `a'` the blocks of the others have been left alone, and what has been added to the heap has
-- been asked of the reserve.
structure Allocator.Leaves (others : Finset Nat) (a a' : Allocator ρ) : Prop where
  base : Reserve.base a'.reserve = Reserve.base a.reserve
  size_le : a.heap.memory.size ≤ a'.heap.memory.size
  payload : ∀ b ∈ others, a'.payload b = a.payload b ∧ a'.usableSize b = a.usableSize b
  lasting : ∀ holds : ρ → Nat → Prop, Reserve.Lasting holds → holds a.reserve a.heap.memory.size →
    holds a'.reserve a'.heap.memory.size

namespace Allocator.Leaves

variable {others : Finset Nat} {a a' a'' : Allocator ρ}

theorem refl (others : Finset Nat) (a : Allocator ρ) : Leaves others a a :=
  ⟨rfl, Nat.le_refl _, fun _ _ => ⟨rfl, rfl⟩, fun _ _ => id⟩

theorem trans (h : Leaves others a a') (h' : Leaves others a' a'') : Leaves others a a'' :=
  ⟨h'.base.trans h.base, Nat.le_trans h.size_le h'.size_le,
    fun b hb => ⟨(h'.payload b hb).1.trans (h.payload b hb).1, (h'.payload b hb).2.trans (h.payload b hb).2⟩,
    fun holds hlasting hbefore => h'.lasting holds hlasting (h.lasting holds hlasting hbefore)⟩

end Allocator.Leaves

namespace Client

variable {c c' : Client ρ} {r : Request} {answer : Option Block} {others : Finset Nat}
  {b b' : Nat} {content content' : ByteArray}

section

omit [Reserve ρ]

theorem ledger_eq_some_iff : c.ledger b = some content ↔
    b ∈ c.live ∧ c.allocator.payload b = .ok content := by
  unfold ledger
  cases hpayload : c.allocator.payload b with
  | error fault => simp [Except.toOption]
  | ok found => simp [Except.toOption]

theorem Geometry.spans (hgeometry : c.Geometry) (hb : c.ledger b = some content) :
    c.Spans b content.size := by
  obtain ⟨usable, content', hspans, hcontent, rfl⟩ :=
    hgeometry.entries b (ledger_eq_some_iff.mp hb).1
  rwa [Option.some.inj (hb.symm.trans hcontent)]

-- Two entries of the ledger do not share a byte.
theorem Geometry.apart (hgeometry : c.Geometry) (hb : c.ledger b = some content)
    (hb' : c.ledger b' = some content') (hne : b ≠ b') :
    b + content.size ≤ b' ∨ b' + content'.size ≤ b :=
  hgeometry.disjoint b _ b' _ (hgeometry.spans hb) (hgeometry.spans hb') hne

-- A payload holds what its entry in the ledger begins with.
theorem Geometry.holds_eq (hgeometry : c.Geometry) (hb : c.ledger b = some content) {count : Nat}
    {f : Nat → UInt8} (hcount : count ≤ content.size) (hbytes : ∀ k < count, content[k]? = some (f k)) :
    c.allocator.heap.holds b count f = .ok true := by
  have hspans := hgeometry.spans hb
  have husable : Block.usableSize c.allocator.heap.memory b = .ok content.size := hspans.2
  obtain ⟨-, -, hinside⟩ := hgeometry.inside b _ hspans
  have hslice : c.allocator.heap.memory.slice b content.size = .ok content := by
    have hpayload := (ledger_eq_some_iff.mp hb).2
    rwa [Allocator.payload, Heap.payload, husable, ok_bind] at hpayload
  have hagrees : c.allocator.heap.memory.agrees b f count = true := by
    refine Memory.agrees_iff.mpr fun k hk => ?_
    rw [← (Memory.getElem?_of_slice hslice).2 k (by omega)]
    exact hbytes k hk
  have hroom : ¬(content.size < count ∨ c.allocator.heap.memory.size < b + content.size) := by omega
  simp [Heap.holds, husable, hroom, hagrees]

end

-- A request of a client that keeps off the blocks `others`.
structure Serves (others : Finset Nat) (c : Client ρ) (r : Request) (answer : Option Block)
    (c' : Client ρ) : Prop where
  run : (r.run c.allocator).result = .ok (answer, c'.allocator)
  reachable : c'.Reachable
  step : Ledger.Step c.ledger r answer c'.ledger
  kept : others ⊆ c'.live
  leaves : Allocator.Leaves others c.allocator c'.allocator

theorem Reachable.exists_serves [FixedBase ρ] (hreachable : c.Reachable) (hadmits : c.Admits r)
    (hothers : others ⊆ c.live) (htarget : ∀ b ∈ r.target, b ∉ others) :
    ∃ answer c', Serves others c r answer c' := by
  obtain ⟨bs, ls, hinv⟩ := hreachable.exists_inv
  obtain ⟨answer, c', hstep, hledger, -, hkept⟩ := hinv.exists_refined_step hadmits
  obtain ⟨bs', ls', -, hchange⟩ := hinv.of_step hadmits hstep
  obtain ⟨⟨answer', a'⟩, hrun, hnext⟩ := bind_eq_ok_iff.mp hstep
  obtain ⟨rfl, rfl⟩ := Prod.mk.inj (Except.ok.inj hnext)
  have hspared : ∀ b ∈ others, r.target ≠ some b := fun b hb heq => htarget b heq hb
  refine ⟨answer', _, hrun, hreachable.step hadmits hstep, hledger, ?_, Request.run_base hrun,
    (hchange.becomes hinv.sound).size_le, ?_, fun holds hlasting => hlasting.run hrun⟩
  · exact fun b hb => (hkept b (hothers hb) (hspared b hb)).2.2
  · intro b hb
    obtain ⟨hpayload, husable, -⟩ := hkept b (hothers hb) (hspared b hb)
    exact ⟨hpayload, husable⟩

end Client

end SegregatedFit
