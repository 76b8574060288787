import SegregatedFit.Proofs.Region.DataSegment
import Mathlib.Logic.Pairwise

/-!
Heaps that share a process break. They are opened and extended in any order, next to others who move the
break, and each of them still owns its bytes alone. Only the heap at whose end the break stands can grow,
and a heap that the break has left behind never grows again.
-/

namespace SegregatedFit

namespace DataSegment

variable {d' : DataSegment} {heap : BreakHeap} {number delta : Nat} {answer : Except GrowError Nat}

-- What can happen to a data segment. Opening a heap takes two moves, between which others may be at work:
-- the break is read first, and the heap is started at what has been read later.
inductive Move where
  | read
  | start (seen number : Nat)
  | extend (number delta : Nat)
  -- somebody else moves the break
  | foreign (delta : Nat)
  -- the owner of a heap changes bytes of it
  | store (number : Nat) (memory : Memory)
  -- the system makes up its mind on how far the break may go
  | limit (ceiling : Nat)

-- A data segment, what has been read of its break, and the ranges that foreign moves have taken.
structure World where
  segment : DataSegment
  readings : List Nat
  taken : List (Nat × Nat)

-- Who holds addresses of a data segment: a heap, or whoever made a foreign move.
inductive Party where
  | heap (number : Nat)
  | foreign (i : Nat)

namespace World

def ofBreak (limit : ProcessBreak) : World := ⟨.ofBreak limit, [], []⟩

-- The world after a move; there is none when the move does not fit it.
def step (w : World) : Move → Option World
  | .read => some { w with readings := w.segment.limit.current :: w.readings }
  | .start seen number =>
    if seen ∈ w.readings ∧ number ∉ w.segment.heaps then
      some { w with segment := (w.segment.openAt seen number).2 }
    else none
  | .extend number delta =>
    match (w.segment.extend number delta).map Run.result with
    | some (.ok (_, segment)) => some { w with segment }
    | _ => none
  | .foreign delta =>
    let segment := w.segment.moveAway delta
    some { w with segment, taken := w.taken ++ [(w.segment.limit.current, segment.limit.current)] }
  | .store number memory => do
    let heap ← w.segment.heaps[number]?
    if memory.size = heap.memory.size then
      some { w with segment.heaps := w.segment.heaps.insert number ⟨heap.start, memory⟩ }
    else none
  | .limit ceiling => some { w with segment.limit.ceiling := ceiling }

def run (w : World) : List Move → Option World
  | [] => some w
  | m :: rest => w.step m >>= (run · rest)

-- The addresses that a party holds.
def held (w : World) : Party → Finset Nat
  | .heap number => w.segment.heaps[number]?.elim ∅ BreakHeap.range
  | .foreign i => w.taken[i]?.elim ∅ fun (low, high) => Finset.Ico low high

-- Heaps start at aligned addresses, nobody holds an address that the break has not passed, and none is
-- held by two.
structure Orderly (w : World) : Prop where
  readings : ∀ seen ∈ w.readings, seen ≤ w.segment.limit.current
  aligned : ∀ (number : Nat) (heap : BreakHeap), w.segment.heaps[number]? = some heap →
    heap.start % alignment = 0
  stop_le : ∀ (number : Nat) (heap : BreakHeap), w.segment.heaps[number]? = some heap →
    heap.stop ≤ w.segment.limit.current
  taken_le : ∀ range ∈ w.taken, range.2 ≤ w.segment.limit.current
  apart : Pairwise fun a b => Disjoint (w.held a) (w.held b)

variable {w w' : World}

theorem held_heap (hheap : w.segment.heaps[number]? = some heap) :
    w.held (.heap number) = heap.range := by
  simp only [held, hheap, Option.elim_some]

theorem Orderly.held_lt (hw : w.Orderly) {a : Party} {x : Nat} (hx : x ∈ w.held a) :
    x < w.segment.limit.current := by
  cases a with
  | heap number =>
      cases hheap : w.segment.heaps[number]? with
      | none => simp [held, hheap] at hx
      | some heap =>
          rw [held_heap hheap] at hx
          exact (BreakHeap.mem_range.mp hx).2.trans_le (hw.stop_le number heap hheap)
  | foreign i =>
      cases hi : w.taken[i]? with
      | none => simp [held, hi] at hx
      | some range =>
          simp only [held, hi, Option.elim_some] at hx
          exact (Finset.mem_Ico.mp hx).2.trans_le (hw.taken_le range (List.mem_of_getElem? hi))

-- The addresses from the break on are nobody's, so one party may take some of them.
theorem Orderly.apart_of_gain (hw : w.Orderly) (a : Party)
    (hgain : ∀ x ∈ w'.held a, x ∈ w.held a ∨ w.segment.limit.current ≤ x)
    (hothers : ∀ b, b ≠ a → w'.held b = w.held b) :
    Pairwise fun b c => Disjoint (w'.held b) (w'.held c) := by
  have hfresh : ∀ b, b ≠ a → Disjoint (w'.held a) (w'.held b) := by
    intro b hb
    rw [hothers b hb]
    refine Finset.disjoint_left.mpr fun x hx hheld => ?_
    rcases hgain x hx with hold | hnew
    · exact Finset.disjoint_left.mp (hw.apart hb.symm) hold hheld
    · exact absurd (hw.held_lt hheld) (Nat.not_lt_of_le hnew)
  intro b c hne
  by_cases hb : b = a
  · subst hb
    exact hfresh c hne.symm
  by_cases hc : c = a
  · subst hc
    exact (hfresh b hb).symm
  · rw [hothers b hb, hothers c hc]
    exact hw.apart hne

-- The break moves up, and nobody takes what it passes.
theorem Orderly.raise (hw : w.Orderly) {limit : ProcessBreak}
    (hup : w.segment.limit.current ≤ limit.current) : Orderly { w with segment.limit := limit } where
  readings seen hseen := (hw.readings seen hseen).trans hup
  aligned := hw.aligned
  stop_le number heap hheap := (hw.stop_le number heap hheap).trans hup
  taken_le range hrange := (hw.taken_le range hrange).trans hup
  apart := hw.apart

-- A heap is put in its place, which may reach into what the break passes.
theorem Orderly.insert (hw : w.Orderly) {limit : ProcessBreak}
    (hup : w.segment.limit.current ≤ limit.current)
    (haligned : heap.start % alignment = 0) (hstop : heap.stop ≤ limit.current)
    (hgain : ∀ x ∈ heap.range, x ∈ w.held (.heap number) ∨ w.segment.limit.current ≤ x) :
    Orderly { w with segment := ⟨limit, w.segment.heaps.insert number heap⟩ } where
  readings seen hseen := (hw.readings seen hseen).trans hup
  aligned other heap' hheap' := by
    rw [heaps_insert] at hheap'
    split at hheap'
    · exact Option.some.inj hheap' ▸ haligned
    · exact hw.aligned other heap' hheap'
  stop_le other heap' hheap' := by
    rw [heaps_insert] at hheap'
    split at hheap'
    · exact Option.some.inj hheap' ▸ hstop
    · exact (hw.stop_le other heap' hheap').trans hup
  taken_le range hrange := (hw.taken_le range hrange).trans hup
  apart := by
    refine hw.apart_of_gain (.heap number) ?_ ?_
    · rw [held_heap Std.TreeMap.getElem?_insert_self]
      exact hgain
    · intro b hb
      cases b with
      | heap other =>
          have hne : other ≠ number := fun heq => hb (congrArg Party.heap heq)
          show Option.elim _ _ _ = _
          rw [heaps_insert_of_ne _ _ hne]
          rfl
      | foreign i => rfl

-- A foreign move takes what the break passes.
theorem Orderly.take (hw : w.Orderly) {limit : ProcessBreak}
    (hup : w.segment.limit.current ≤ limit.current) :
    Orderly { w with
      segment.limit := limit, taken := w.taken ++ [(w.segment.limit.current, limit.current)] } where
  readings seen hseen := (hw.readings seen hseen).trans hup
  aligned := hw.aligned
  stop_le number heap hheap := (hw.stop_le number heap hheap).trans hup
  taken_le range hrange := by
    rcases List.mem_append.mp hrange with hold | hnew
    · exact (hw.taken_le range hold).trans hup
    · obtain rfl := List.mem_singleton.mp hnew
      exact Nat.le_refl _
  apart := by
    refine hw.apart_of_gain (.foreign w.taken.length) ?_ ?_
    · simp only [held, List.getElem?_append_right (Nat.le_refl _), Nat.sub_self]
      exact fun x hx => .inr (Finset.mem_Ico.mp hx).1
    · intro b hb
      cases b with
      | heap number => rfl
      | foreign i =>
          have hne : i ≠ w.taken.length := fun heq => hb (congrArg Party.foreign heq)
          have hsame : (w.taken ++ [(w.segment.limit.current, limit.current)])[i]? = w.taken[i]? := by
            rcases Nat.lt_or_gt_of_ne hne with hlt | hgt
            · exact List.getElem?_append_left hlt
            · rw [List.getElem?_eq_none (by simp; omega), List.getElem?_eq_none hgt.le]
          show Option.elim _ _ _ = _
          rw [hsame]
          rfl

theorem orderly_ofBreak (limit : ProcessBreak) : (ofBreak limit).Orderly where
  readings _ h := nomatch h
  aligned number heap h := by simp [ofBreak, DataSegment.ofBreak] at h
  stop_le number heap h := by simp [ofBreak, DataSegment.ofBreak] at h
  taken_le _ h := nomatch h
  apart a b _ := by
    have hnone : (ofBreak limit).held a = ∅ := by
      cases a <;> simp [ofBreak, DataSegment.ofBreak, held]
    show Disjoint _ _
    rw [hnone]
    exact Finset.disjoint_empty_left _

theorem Orderly.extend (hw : w.Orderly) (h : w.segment.Extends number delta answer d') :
    Orderly { w with segment := d' } := by
  obtain ⟨heap, hheap, hextended⟩ := h.extended
  have haligned := hw.aligned number heap hheap
  have hstop := hw.stop_le number heap hheap
  cases hextended with
  | refused hup =>
      refine hw.insert hup haligned (hstop.trans hup) ?_
      rw [held_heap hheap]
      exact fun x hx => .inl hx
  | @grown fresh limit hfresh hend hlimit =>
      refine hw.insert (by omega) haligned ?_ ?_
      · rw [BreakHeap.stop_append]
        omega
      · rw [held_heap hheap, ← hend]
        intro x hx
        exact (Nat.lt_or_ge x heap.stop).imp_left fun hlt =>
          BreakHeap.mem_range.mpr ⟨(BreakHeap.mem_range.mp hx).1, hlt⟩

theorem Orderly.start (hw : w.Orderly) {seen : Nat} (hseen : seen ∈ w.readings) (number : Nat) :
    Orderly { w with segment := (w.segment.openAt seen number).2 } := by
  obtain ⟨limit, hup, hopen | ⟨start, hopen, haligned, hle⟩⟩ := w.segment.openAt_cases seen number
  · rw [hopen]
    exact hw.raise hup
  · rw [hopen]
    refine hw.insert hup haligned (hle (hw.readings seen hseen)) ?_
    have hempty : BreakHeap.range ⟨start, .empty⟩ = ∅ := Finset.Ico_self start
    simp [hempty]

theorem step_extend (h : w.step (.extend number delta) = some w') :
    ∃ answer d', w.segment.Extends number delta answer d' ∧ w' = { w with segment := d' } := by
  simp only [step] at h
  split at h
  next answer d' hextends => exact ⟨answer, d', hextends, (Option.some.inj h).symm⟩
  · cases h

theorem Orderly.step (hw : w.Orderly) {m : Move} (h : w.step m = some w') : w'.Orderly := by
  cases m with
  | read =>
      obtain rfl := Option.some.inj h
      refine { hw with readings := fun seen hseen => ?_ }
      rcases List.mem_cons.mp hseen with rfl | hold
      · exact Nat.le_refl _
      · exact hw.readings seen hold
  | start seen number =>
      obtain ⟨⟨hseen, -⟩, hw'⟩ := Option.ite_none_right_eq_some.mp h
      obtain rfl := Option.some.inj hw'
      exact hw.start hseen number
  | extend number delta =>
      obtain ⟨answer, d', hextends, rfl⟩ := step_extend h
      exact hw.extend hextends
  | foreign delta =>
      obtain rfl := Option.some.inj h
      exact hw.take (ProcessBreak.current_le_moveAway _ _)
  | store number memory =>
      obtain ⟨heap, hheap, h⟩ := Option.bind_eq_some_iff.mp h
      obtain ⟨hsize, hw'⟩ := Option.ite_none_right_eq_some.mp h
      obtain rfl := Option.some.inj hw'
      have hstop : BreakHeap.stop ⟨heap.start, memory⟩ = heap.stop := congrArg (heap.start + ·) hsize
      refine hw.insert (Nat.le_refl _) (hw.aligned number heap hheap) ?_ ?_
      · exact hstop ▸ hw.stop_le number heap hheap
      · rw [held_heap hheap, BreakHeap.range, hstop]
        exact fun x hx => .inl hx
  | limit ceiling =>
      obtain rfl := Option.some.inj h
      exact hw.raise (Nat.le_refl _)

theorem Orderly.run (hw : w.Orderly) {moves : List Move} (h : w.run moves = some w') : w'.Orderly := by
  induction moves generalizing w with
  | nil => exact Option.some.inj h ▸ hw
  | cons m rest ih =>
      obtain ⟨w₁, hstep, hrest⟩ := Option.bind_eq_some_iff.mp h
      exact ih (hw.step hstep) hrest

-- The break is past the end of heap `number`.
def Stranded (w : World) (number : Nat) : Prop :=
  ∃ heap : BreakHeap, w.segment.heaps[number]? = some heap ∧ heap.stop < w.segment.limit.current

theorem Stranded.not_extends (hw : w.Stranded number) {offset : Nat} :
    ¬ w.segment.Extends number delta (.ok offset) d' := by
  intro h
  obtain ⟨heap, hheap, hlt⟩ := hw
  obtain ⟨heap', hheap', hextended⟩ := h.extended
  obtain rfl := Option.some.inj (hheap.symm.trans hheap')
  cases hextended with
  | grown hfresh hstop hlimit => omega

-- No other heap's growing brings the break back.
theorem Stranded.insert (hw : w.Stranded number) {limit : ProcessBreak} {other : Nat}
    (hup : w.segment.limit.current ≤ limit.current)
    (hheap : other = number → ∀ heap', w.segment.heaps[number]? = some heap' →
      heap.stop = heap'.stop) :
    Stranded { w with segment := ⟨limit, w.segment.heaps.insert other heap⟩ } number := by
  obtain ⟨heap', hheap', hlt⟩ := hw
  by_cases heq : other = number
  · subst heq
    refine ⟨heap, Std.TreeMap.getElem?_insert_self, ?_⟩
    rw [hheap rfl heap' hheap']
    exact hlt.trans_le hup
  · exact ⟨heap', (heaps_insert_of_ne _ _ (Ne.symm heq)).trans hheap', hlt.trans_le hup⟩

theorem Stranded.step (hw : w.Stranded number) {m : Move} (h : w.step m = some w') :
    w'.Stranded number := by
  cases m with
  | read =>
      obtain rfl := Option.some.inj h
      exact hw
  | start seen other =>
      obtain ⟨⟨-, hnew⟩, hw'⟩ := Option.ite_none_right_eq_some.mp h
      obtain rfl := Option.some.inj hw'
      obtain ⟨limit, hup, hopen | ⟨start, hopen, -⟩⟩ := w.segment.openAt_cases seen other
      · rw [hopen]
        obtain ⟨heap, hheap, hlt⟩ := hw
        exact ⟨heap, hheap, hlt.trans_le hup⟩
      · rw [hopen]
        refine hw.insert hup fun heq heap' hheap' => ?_
        subst heq
        exact absurd (Std.TreeMap.mem_iff_isSome_getElem?.mpr (by simp [hheap'])) hnew
  | extend other delta =>
      obtain ⟨answer, d', hextends, rfl⟩ := step_extend h
      obtain ⟨heap, hheap, hextended⟩ := hextends.extended
      cases hextended with
      | refused hup =>
          refine hw.insert hup fun heq heap' hheap' => ?_
          subst heq
          exact congrArg _ (Option.some.inj (hheap.symm.trans hheap'))
      | grown hfresh hstop hlimit =>
          refine hw.insert (by omega) fun heq => ?_
          subst heq
          exact absurd hextends hw.not_extends
  | foreign delta =>
      obtain rfl := Option.some.inj h
      obtain ⟨heap, hheap, hlt⟩ := hw
      exact ⟨heap, hheap, hlt.trans_le (ProcessBreak.current_le_moveAway _ _)⟩
  | store other memory =>
      obtain ⟨heap, hheap, h⟩ := Option.bind_eq_some_iff.mp h
      obtain ⟨hsize, hw'⟩ := Option.ite_none_right_eq_some.mp h
      obtain rfl := Option.some.inj hw'
      refine hw.insert (Nat.le_refl _) fun heq heap' hheap' => ?_
      subst heq
      obtain rfl := Option.some.inj (hheap.symm.trans hheap')
      exact congrArg (heap.start + ·) hsize
  | limit ceiling =>
      obtain rfl := Option.some.inj h
      exact hw

theorem Stranded.run (hw : w.Stranded number) {moves : List Move} (h : w.run moves = some w') :
    w'.Stranded number := by
  induction moves generalizing w with
  | nil => exact Option.some.inj h ▸ hw
  | cons m rest ih =>
      obtain ⟨w₁, hstep, hrest⟩ := Option.bind_eq_some_iff.mp h
      exact ih (hw.step hstep) hrest

-- A heap that has found the break elsewhere is stranded.
theorem Orderly.stranded (hw : w.Orderly) {expected found : Nat}
    (h : w.segment.Extends number delta (.error (.discontiguous expected found)) d') :
    Stranded { w with segment := d' } number := by
  obtain ⟨heap, hheap, hextended⟩ := h.extended
  have hstop := hw.stop_le number heap hheap
  cases hextended with
  | refused hup hcause =>
      have hne := hcause expected found rfl
      refine ⟨heap, Std.TreeMap.getElem?_insert_self, ?_⟩
      show heap.stop < _
      exact (Nat.lt_of_le_of_ne hstop hne).trans_le hup

/-
Whatever is done to a process break and to the heaps on it, in whichever order:
- every heap starts at an aligned address;
- heaps have no address in common, neither with each other nor with a range that a foreign move has taken;
- extending a heap does not fault. It returns the old length and appends exactly what was asked for, or it
  fails and leaves the heap as it is; it touches no other heap;
- a heap that has found the break elsewhere never grows again, whatever comes later.
-/
theorem heaps_of_run {limit : ProcessBreak} {moves : List Move}
    (hrun : (ofBreak limit).run moves = some w) :
    (∀ (number : Nat) (heap : BreakHeap), w.segment.heaps[number]? = some heap →
      heap.start % alignment = 0) ∧
    (Pairwise fun a b => Disjoint (w.held a) (w.held b)) ∧
    (∀ (number : Nat) (heap : BreakHeap), w.segment.heaps[number]? = some heap → ∀ delta,
      (∃ answer d', w.segment.Extends number delta answer d') ∧
      (∀ offset d', w.segment.Extends number delta (.ok offset) d' → offset = heap.memory.size ∧
        ∃ fresh : ByteArray, fresh.size = delta ∧
          d'.heaps[number]? = some ⟨heap.start, heap.memory.append fresh⟩) ∧
      (∀ cause d', w.segment.Extends number delta (.error cause) d' →
        d'.heaps[number]? = some heap) ∧
      ∀ answer d', w.segment.Extends number delta answer d' →
        ∀ other, other ≠ number → d'.heaps[other]? = w.segment.heaps[other]?) ∧
    ∀ number delta expected found d',
      w.segment.Extends number delta (.error (.discontiguous expected found)) d' →
      ∀ later w', run { w with segment := d' } later = some w' →
        ∀ delta' offset d₁, ¬ w'.segment.Extends number delta' (.ok offset) d₁ := by
  have hw := (orderly_ofBreak limit).run hrun
  refine ⟨hw.aligned, hw.apart, ?_, ?_⟩
  · intro number heap hheap delta
    obtain ⟨answer, d', hextends, -⟩ := extend_spec hheap delta
    exact ⟨⟨answer, d', hextends⟩, fun _ _ h => h.memory_of_ok hheap,
      fun _ _ h => h.memory_of_error hheap, fun _ _ h _ hne => h.others hne⟩
  · intro number delta expected found d' hextends later w' hlater delta' offset d₁
    exact ((hw.stranded hextends).run hlater).not_extends

-- Two heaps on one base, of which the first takes the bytes there, then a foreign move, and a third heap
-- behind what it has taken.
theorem heaps_one_base : ∃ w d', (ofBreak ⟨4096, 8192⟩).run [.read, .start 4096 0, .start 4096 1,
      .extend 0 16, .foreign 3, .read, .start 4115 2, .extend 2 8] = some w ∧
    w.held (.heap 0) = Finset.Ico 4096 4112 ∧ w.held (.heap 2) = Finset.Ico 4120 4128 ∧
    w.held (.foreign 0) = Finset.Ico 4112 4115 ∧ Disjoint (w.held (.heap 0)) (w.held (.heap 2)) ∧
    Disjoint (w.held (.heap 0)) (w.held (.foreign 0)) ∧
    w.segment.Extends 1 8 (.error (.discontiguous 4096 4128)) d' ∧ d'.limit.current = 4136 ∧
    ∀ later w', run { w with segment := d' } later = some w' →
      ∀ delta offset d₁, ¬ w'.segment.Extends 1 delta (.ok offset) d₁ := by
  let moves : List Move := [.read, .start 4096 0, .start 4096 1, .extend 0 16, .foreign 3, .read,
    .start 4115 2, .extend 2 8]
  have hrun : ((ofBreak ⟨4096, 8192⟩).run moves).any fun w =>
      w.segment.heaps[0]?.any (fun heap => heap.start = 4096 ∧ heap.stop = 4112) ∧
      w.segment.heaps[2]?.any (fun heap => heap.start = 4120 ∧ heap.stop = 4128) ∧
      w.taken = [(4112, 4115)] ∧
      ((w.segment.extend 1 8).map Run.result).any fun result => result.toOption.any fun (answer, d') =>
        answer = .error (.discontiguous 4096 4128) ∧ d'.limit.current = 4136 := by
    decide +kernel
  obtain ⟨w, hw, hholds⟩ := (Option.any_eq_true _ _).mp hrun
  obtain ⟨hzero, htwo, htaken, hextend⟩ := of_decide_eq_true hholds
  obtain ⟨first, hfirst, hbounds⟩ := (Option.any_eq_true _ _).mp hzero
  obtain ⟨hstart, hstop⟩ := of_decide_eq_true hbounds
  obtain ⟨third, hthird, hbounds⟩ := (Option.any_eq_true _ _).mp htwo
  obtain ⟨hstart', hstop'⟩ := of_decide_eq_true hbounds
  obtain ⟨result, hresult, hanswer⟩ := (Option.any_eq_true _ _).mp hextend
  obtain ⟨⟨answer, d'⟩, hok, hanswer⟩ := (Option.any_eq_true _ _).mp hanswer
  obtain ⟨rfl, hcurrent⟩ := of_decide_eq_true hanswer
  have hextends : w.segment.Extends 1 8 (.error (.discontiguous 4096 4128)) d' := by
    cases result with
    | error fault => cases hok
    | ok step =>
        obtain rfl := Option.some.inj hok
        exact hresult
  obtain ⟨-, hapart, -, hstranded⟩ := heaps_of_run hw
  refine ⟨w, d', hw, ?_, ?_, ?_, hapart (by simp), hapart (by simp), hextends, hcurrent, ?_⟩
  · rw [held_heap hfirst, BreakHeap.range, hstart, hstop]
  · rw [held_heap hthird, BreakHeap.range, hstart', hstop']
  · simp [held, htaken]
  · exact hstranded 1 8 4096 4128 d' hextends

end World

end DataSegment

end SegregatedFit
