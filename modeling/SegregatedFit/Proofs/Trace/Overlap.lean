import SegregatedFit.Proofs.Machine.Replay
import Mathlib.Logic.Relation

/-!
The overlap test. Whatever blocks a replay is handed, the ranges of its live ids have no byte in common, and
a block is turned down exactly when its range has a byte in common with one of them.
-/

namespace SegregatedFit

-- The bytes that were asked for.
def Live.range (e : Live) : Finset Nat := Finset.Ico e.block (e.block + e.size)

namespace Live

variable {b size b' size' first stop : Nat}

theorem meets_iff (hsize : 0 < size) (hfirst : first < stop) :
    (Finset.Ico first stop ∩ range ⟨b, size⟩).Nonempty ↔ b < stop ∧ first < b + size := by
  rw [range, Finset.Ico_inter_Ico, Finset.nonempty_Ico, max_lt_iff, lt_min_iff, lt_min_iff]
  dsimp only
  omega

theorem disjoint_range (h : b + size ≤ b' ∨ b' + size' ≤ b) :
    Disjoint (range ⟨b, size⟩) (range ⟨b', size'⟩) := by
  refine Finset.disjoint_left.mpr fun x hx hx' => ?_
  have hbounds := Finset.mem_Ico.mp hx
  have hbounds' := Finset.mem_Ico.mp hx'
  dsimp only at hbounds hbounds'
  omega

end Live

-- Whatever the run comes to satisfies `Q`, unless it ends in a fault.
def Run.Ensures {α : Type} (x : Run α) (Q : α → Prop) : Prop := ∀ a, x.result = .ok a → Q a

namespace Run.Ensures

variable {α β : Type} {x : Run α} {f : α → Run β} {Q Q' : α → Prop} {P : β → Prop} {a : α}

theorem pure (ha : Q a) : Ensures (Pure.pure a) Q := by
  rintro _ ⟨⟩
  exact ha

theorem bind (hf : ∀ a, x.result = .ok a → (f a).Ensures P) : (x >>= f).Ensures P := by
  intro b hb
  rw [result_bind, bind_eq_ok_iff] at hb
  obtain ⟨a, ha, hb⟩ := hb
  exact hf a ha b hb

theorem mono (hx : x.Ensures Q) (hQ : ∀ a, Q a → Q' a) : x.Ensures Q' := fun a ha => hQ a (hx a ha)

end Run.Ensures

namespace Replay

variable {ρ : Type} [Reserve ρ] {r r' : Replay ρ} {op id b size : Nat}
  {answer : Except ReplayError Unit}

-- One move of a replay. The allocator is free in what it does and in the blocks that it hands out.
inductive Moves : Replay ρ → Replay ρ → Prop
  | serve (r : Replay ρ) (a : Allocator ρ) : Moves r (r.atop a)
  | release {r r' : Replay ρ} {id : Nat} {e : Live} (hrelease : r.release id = some (e, r')) :
      Moves r r'
  -- a block is offered for an id that is not live
  | claim {r : Replay ρ} {id size : Nat} (op b : Nat) (hidle : r.live[id]? = none) (hpos : 0 < size) :
      Moves r (r.claim op id b size).2

theorem claim_of_aligned (op id size : Nat) (haligned : r.allocator.address b % alignment = 0) :
    r.claim op id b size = if overlaps r.ranges b (b + size) then (.error (.overlap op id), r)
      else (.ok (), r.enter id b size) :=
  if_neg (not_not_intro haligned)

theorem claim_of_misaligned (op id size : Nat) (hbad : r.allocator.address b % alignment ≠ 0) :
    r.claim op id b size = (.error (.misaligned op id (r.allocator.address b)), r) :=
  if_pos hbad

omit [Reserve ρ] in
theorem eq_without_of_release {e : Live} (h : r.release id = some (e, r')) :
    r.live[id]? = some e ∧ r' = r.without id e := by
  cases hlive : r.live[id]? with
  | none => simp [release, hlive] at h
  | some e' =>
      rw [release_eq hlive] at h
      obtain ⟨rfl, rfl⟩ := Prod.mk.inj (Option.some.inj h)
      exact ⟨rfl, rfl⟩

namespace Shadow

-- A block that is turned down leaves the state as it is.
theorem claim (hshadow : r.Shadow) (op b : Nat) (hidle : r.live[id]? = none) (hpos : 0 < size) :
    (r.claim op id b size).2.Shadow := by
  by_cases haligned : r.allocator.address b % alignment = 0
  · rw [claim_of_aligned op id size haligned]
    cases hmeets : overlaps r.ranges b (b + size) with
    | true => exact hshadow
    | false => exact hshadow.enter hidle hpos hmeets
  · rw [claim_of_misaligned op id size haligned]
    exact hshadow

theorem move (hshadow : r.Shadow) (hmove : Moves r r') : r'.Shadow := by
  cases hmove with
  | serve a => exact hshadow.atop a
  | release hrelease =>
      obtain ⟨hlive, rfl⟩ := eq_without_of_release hrelease
      exact hshadow.without hlive
  | claim op b hidle hpos => exact hshadow.claim op b hidle hpos

theorem moves (hshadow : r.Shadow) (hmoves : Relation.ReflTransGen Moves r r') : r'.Shadow := by
  induction hmoves with
  | refl => exact hshadow
  | tail _ hmove ih => exact ih.move hmove

end Shadow

-- What a replay records of the live ids, and what its test makes of a block.
structure Exact (r : Replay ρ) : Prop where
  starts : ∀ (id id' : Nat) (e e' : Live), r.live[id]? = some e → r.live[id']? = some e' →
    e.block = e'.block → id = id'
  ranges : ∀ b stop : Nat, r.ranges[b]? = some stop ↔
    ∃ (id : Nat) (e : Live), r.live[id]? = some e ∧ e.block = b ∧ e.block + e.size = stop
  nonempty : ∀ (id : Nat) (e : Live), r.live[id]? = some e → e.range.Nonempty
  disjoint : ∀ (id id' : Nat) (e e' : Live), r.live[id]? = some e → r.live[id']? = some e' →
    id ≠ id' → Disjoint e.range e'.range
  total : r.liveBytes = (r.live.toList.map (·.2.size)).sum
  overlap : ∀ op id b size : Nat, r.allocator.address b % alignment = 0 → 0 < size →
    ((r.claim op id b size).1 = .error (.overlap op id) ↔
      ∃ (id' : Nat) (e : Live), r.live[id']? = some e ∧ (Finset.Ico b (b + size) ∩ e.range).Nonempty)

theorem Shadow.exact (hshadow : r.Shadow) : r.Exact where
  starts := by
    rintro id id' ⟨b, size⟩ ⟨b', size'⟩ hlive hlive' hblock
    obtain rfl : b = b' := hblock
    exact hshadow.inj hlive hlive'
  ranges b stop := by
    rw [hshadow.ranges]
    constructor
    · rintro ⟨id, size, hlive, hstop⟩
      exact ⟨id, ⟨b, size⟩, hlive, rfl, hstop⟩
    · rintro ⟨id, e, hlive, rfl, hstop⟩
      exact ⟨id, e.size, hlive, hstop⟩
  nonempty := by
    rintro id ⟨b, size⟩ hlive
    have hpos := hshadow.pos id b size hlive
    exact Finset.nonempty_Ico.mpr (Nat.lt_add_of_pos_right hpos)
  disjoint := by
    rintro id id' ⟨b, size⟩ ⟨b', size'⟩ hlive hlive' hne
    exact Live.disjoint_range (hshadow.apart id id' b size b' size' hlive hlive' hne)
  total := hshadow.total
  overlap op id b size haligned hpos := by
    have hrange : b < b + size := Nat.lt_add_of_pos_right hpos
    have hmeets : overlaps r.ranges b (b + size) = true ↔ ∃ (id' : Nat) (e : Live),
        r.live[id']? = some e ∧ (Finset.Ico b (b + size) ∩ e.range).Nonempty := by
      rw [hshadow.overlaps_iff]
      constructor
      · rintro ⟨id', b', size', hlive, hmeets⟩
        have hpos' := hshadow.pos id' b' size' hlive
        exact ⟨id', ⟨b', size'⟩, hlive, (Live.meets_iff hpos' hrange).mpr hmeets⟩
      · rintro ⟨id', ⟨b', size'⟩, hlive, hmeets⟩
        have hpos' := hshadow.pos id' b' size' hlive
        exact ⟨id', b', size', hlive, (Live.meets_iff hpos' hrange).mp hmeets⟩
    rw [claim_of_aligned op id size haligned, ← hmeets]
    cases overlaps r.ranges b (b + size) <;> simp

-- An id can be taken out on a machine, since the count of live bytes is the sum of the sizes.
omit [Reserve ρ] in
theorem Shadow.machine_release (hshadow : r.Shadow) (id : Nat) :
    Machine.Replay.release r id = some (r.release id) := by
  cases hlive : r.live[id]? with
  | none => simp [Machine.Replay.release, release, hlive]
  | some e => rw [Machine.Replay.release_of hshadow hlive, release_eq hlive]

-- Ranges that end at words are together no longer than a word, so that the count stays one.
theorem Shadow.machine_claim (hshadow : r.Shadow)
    (hwords : ∀ id b size : Nat, r.live[id]? = some ⟨b, size⟩ → b + size < Machine.wordLimit)
    (op : Nat) (hidle : r.live[id]? = none) (hpos : 0 < size)
    (haddress : Reserve.base r.allocator.reserve + b < Machine.wordLimit)
    (hstop : b + size < Machine.wordLimit) :
    Machine.Replay.claim r op id b size = some (r.claim op id b size) := by
  have hsum : Machine.add (Reserve.base r.allocator.reserve) b = some (r.allocator.address b) :=
    Machine.add_eq_some haddress
  by_cases haligned : r.allocator.address b % alignment = 0
  swap
  · rw [claim_of_misaligned op id size haligned]
    simp [Machine.Replay.claim, hsum, haligned]
  rw [claim_of_aligned op id size haligned]
  cases hmeets : overlaps r.ranges b (b + size) with
  | true => simp [Machine.Replay.claim, hsum, haligned, Machine.add_eq_some hstop, hmeets]
  | false =>
      have hbytes : r.liveBytes + size ≤ Machine.wordLimit - 1 := by
        refine (hshadow.enter hidle hpos hmeets).liveBytes_le fun id' b' size' hlive => ?_
        rcases (getElem?_enter hidle).mp hlive with ⟨-, rfl, rfl⟩ | hlive
        · exact Nat.le_sub_one_of_lt hstop
        · exact Nat.le_sub_one_of_lt (hwords id' b' size' hlive)
      have hentered : Machine.Replay.enter r id b size = some (r.enter id b size) :=
        Machine.Replay.enter_of hstop (Nat.lt_of_le_pred (by decide) hbytes)
      simp [Machine.Replay.claim, hsum, haligned, Machine.add_eq_some hstop, hmeets, hentered]

section

open Relation

omit [Reserve ρ] in
theorem idle_of_release {e : Live} (h : r.release id = some (e, r')) : r'.live[id]? = none := by
  obtain ⟨-, rfl⟩ := eq_without_of_release h
  simp [without]

theorem moves_of_update {f : Allocator ρ → Run (Allocator ρ)} (h : (r.update f).result = .ok r') :
    Moves r r' := by
  obtain ⟨a, rfl⟩ := eq_atop_of_update h
  exact .serve r a

theorem moves_of_claim (hidle : r.live[id]? = none) (hpos : 0 < size)
    (h : r.claim op id b size = (answer, r')) : Moves r r' := by
  have hmove : Moves r (r.claim op id b size).2 := .claim op b hidle hpos
  rwa [h] at hmove

-- To resize to nothing is to free, so that no block comes back.
theorem pos_of_reallocate {b' : Block} (h : (r.reallocate b size).result = .ok (some b', r')) :
    0 < size := by
  obtain ⟨a, live, ranges, liveBytes, peakLiveBytes⟩ := r
  obtain ⟨⟨block, a'⟩, hreallocate, h⟩ := bind_eq_ok_iff.mp ((Run.result_bind ..).symm.trans h)
  obtain ⟨rfl, -⟩ := Prod.mk.inj (Except.ok.inj h)
  apply Nat.pos_of_ne_zero
  rintro rfl
  obtain ⟨a'', -, hfreed⟩ := bind_eq_ok_iff.mp ((Run.result_bind ..).symm.trans hreallocate)
  cases hfreed

theorem retire_moves (r : Replay ρ) (op id : Nat) : (r.retire op id).Ensures fun (answer, r') =>
    ReflTransGen Moves r r' ∧ (answer = .ok () → r'.live[id]? = none) := by
  unfold retire
  cases hrelease : r.release id with
  | none => exact .pure ⟨.refl, nofun⟩
  | some out =>
      obtain ⟨e, r₁⟩ := out
      have hreleased : ReflTransGen Moves r r₁ := .single (.release hrelease)
      refine .bind fun intact _ => ?_
      cases intact with
      | false => exact .pure ⟨hreleased, nofun⟩
      | true =>
          refine .bind fun r₂ hfree => .pure ⟨hreleased.tail (moves_of_update hfree), fun _ => ?_⟩
          obtain ⟨a, rfl⟩ := eq_atop_of_update hfree
          have hidle : r₁.live[id]? = none := idle_of_release hrelease
          exact hidle

theorem obtain_moves (hidle : r.live[id]? = none) (op size : Nat) :
    (r.obtain op id size).Ensures fun out => ReflTransGen Moves r out.2 := by
  unfold obtain
  by_cases hzero : size = 0
  · rw [if_pos hzero]
    exact .pure .refl
  rw [if_neg hzero]
  refine .bind fun ⟨block, r₁⟩ hallocate => ?_
  obtain ⟨a, rfl⟩ := eq_atop_of_allocate hallocate
  have hserved : ReflTransGen Moves r (r.atop a) := .single (.serve r a)
  cases block with
  | none => exact .pure hserved
  | some b =>
      rcases hclaim : (r.atop a).claim op id b size with ⟨claimed, r₂⟩
      have hclaimed := hserved.tail (moves_of_claim hidle (Nat.pos_of_ne_zero hzero) hclaim)
      cases claimed with
      | error error =>
          simp only [hclaim]
          exact .pure hclaimed
      | ok done =>
          simp only [hclaim]
          exact .bind fun r₃ hfill => .pure (hclaimed.tail (moves_of_update hfill))

theorem resize_moves (r : Replay ρ) (op id size : Nat) :
    (r.step op (.realloc id size)).Ensures fun out => ReflTransGen Moves r out.2 := by
  unfold step
  cases hrelease : r.release id with
  | none =>
      simp only [hrelease]
      exact .pure .refl
  | some out =>
  obtain ⟨e, r₁⟩ := out
  simp only [hrelease]
  have hreleased : ReflTransGen Moves r r₁ := .single (.release hrelease)
  have hidle : r₁.live[id]? = none := idle_of_release hrelease
  refine .bind fun intact _ => ?_
  cases intact with
  | false => exact .pure hreleased
  | true =>
  refine .bind fun ⟨block, r₂⟩ hreallocate => ?_
  obtain ⟨a, rfl⟩ := eq_atop_of_reallocate hreallocate
  have hserved : ReflTransGen Moves r (r₁.atop a) := hreleased.tail (.serve r₁ a)
  cases block with
  | none =>
      dsimp only
      split
      · exact .pure hserved
      · exact .pure hserved
  | some b =>
  rcases hclaim : (r₁.atop a).claim op id b size with ⟨claimed, r₃⟩
  have hclaimed := hserved.tail (moves_of_claim hidle (pos_of_reallocate hreallocate) hclaim)
  cases claimed with
  | error error =>
      simp only [hclaim]
      exact .pure hclaimed
  | ok done =>
      simp only [hclaim]
      refine .bind fun intact _ => ?_
      cases intact with
      | false => exact .pure hclaimed
      | true => exact .bind fun r₄ hfill => .pure (hclaimed.tail (moves_of_update hfill))

theorem step_moves (r : Replay ρ) (op : Nat) (entry : Op) :
    (r.step op entry).Ensures fun out => ReflTransGen Moves r out.2 := by
  cases entry with
  | alloc id size =>
      unfold step
      dsimp only
      by_cases hcontains : r.live.contains id = true
      · rw [if_pos hcontains]
        refine .bind fun ⟨retired, r₁⟩ hretire => ?_
        obtain ⟨hmoves, hidle⟩ := retire_moves r op id _ hretire
        cases retired with
        | error error => exact .pure hmoves
        | ok done => exact (obtain_moves (hidle rfl) op size).mono fun _ => hmoves.trans
      · rw [if_neg hcontains]
        have hidle : r.live[id]? = none := by
          rw [Std.TreeMap.contains_eq_isSome_getElem?] at hcontains
          simpa using hcontains
        exact obtain_moves hidle op size
  | free id => exact (retire_moves r op id).mono fun _ => And.left
  | realloc id size => exact resize_moves r op id size

theorem checkedStep_moves (r : Replay ρ) (checked : Bool) (op : Nat) (entry : Op) :
    (r.checkedStep checked op entry).Ensures fun out => ReflTransGen Moves r out.2 := by
  unfold checkedStep
  refine .bind fun ⟨stepped, r₁⟩ hstep => ?_
  have hmoves := step_moves r op entry _ hstep
  cases stepped with
  | error error => exact .pure hmoves
  | ok done =>
      cases checked with
      | false => exact .pure hmoves
      | true =>
          refine .bind fun verdict _ => ?_
          cases verdict with
          | ok done => exact .pure hmoves
          | error corruption => exact .pure hmoves

theorem steps_moves {checked : Bool} {ops : List Op} {log : Array Event}
    (h : (steps checked r op log ops).result = .ok (answer, r')) : ReflTransGen Moves r r' := by
  induction ops generalizing r op log with
  | nil =>
      obtain ⟨rfl, rfl⟩ := Prod.mk.inj (Except.ok.inj h)
      exact .refl
  | cons entry rest ih =>
      unfold steps at h
      have hstepped := checkedStep_moves r checked op entry
      rcases hstep : r.checkedStep checked op entry with ⟨result, more⟩
      rw [hstep] at h hstepped
      cases result with
      | error fault => cases h
      | ok out =>
          obtain ⟨stepped, r₁⟩ := out
          have hmoves : ReflTransGen Moves r r₁ := hstepped _ rfl
          cases stepped with
          | error error =>
              obtain ⟨rfl, rfl⟩ := Prod.mk.inj (Except.ok.inj h)
              exact hmoves
          | ok done => exact hmoves.trans (ih h)

-- A replay over any allocator, sound or not, makes no other moves than these, and whatever they lead to is
-- exact. It is what a machine comes to when the offsets and the sizes add up to words.
theorem exact_along_replay (a : Allocator ρ) :
    (∀ checked ops answer r, (steps checked (start a) 0 #[] ops).result = .ok (answer, r) →
      ReflTransGen Moves (start a) r) ∧
    ∀ r, ReflTransGen Moves (start a) r → r.Exact ∧
      ((∀ id b size : Nat, r.live[id]? = some ⟨b, size⟩ → b + size < Machine.wordLimit) →
        (∀ id, Machine.Replay.release r id = some (r.release id)) ∧
        ∀ op id b size : Nat, r.live[id]? = none → 0 < size →
          Reserve.base r.allocator.reserve + b < Machine.wordLimit → b + size < Machine.wordLimit →
          Machine.Replay.claim r op id b size = some (r.claim op id b size)) := by
  refine ⟨fun checked ops answer r hsteps => steps_moves hsteps, fun r hmoves => ?_⟩
  have hshadow := (shadow_start a).moves hmoves
  refine ⟨hshadow.exact, fun hwords => ⟨hshadow.machine_release, ?_⟩⟩
  intro op id b size hidle hpos haddress hstop
  exact hshadow.machine_claim hwords op hidle hpos haddress hstop

end

-- The prologue is made to look like a free block that reaches into the block behind it, and is listed.
def haunt (h : Heap) : Except Fault Heap := do
  let memory ← h.memory.writeWord 4 24
  return ⟨memory, h.index.insert 8 24, h.prologue⟩

-- The block 8 is handed out while the bytes from 16 up to 36 belong to another id.
theorem exact_along_haunted : ∃ (a : Allocator Arena) (r : Replay Arena),
    (steps false (start a) 0 #[] [.alloc 7 20, .alloc 3 16]).result = .ok (.error (.overlap 1 3), r) ∧
    (∃ (id : Nat) (e : Live), r.live[id]? = some e ∧ (Finset.Ico 8 24 ∩ e.range).Nonempty) ∧
    (r.claim 1 3 8 16).1 = .error (.overlap 1 3) ∧
    Machine.Replay.claim r 1 3 8 16 = some (r.claim 1 3 8 16) := by
  have hlaunch : (Client.launch (.ofReserve (Arena.withLimit 4096 256))
      ⟨64, by decide, by decide, by decide⟩ []).any fun c => match haunt c.allocator.heap with
        | .error _ => false
        | .ok h => match (steps false (start { c.allocator with heap := h }) 0 #[]
            [.alloc 7 20, .alloc 3 16]).result with
          | .error _ => false
          | .ok (answer, r) => answer = .error (.overlap 1 3) ∧ r.live.toList = [(7, ⟨16, 20⟩)] ∧
              Reserve.base r.allocator.reserve = 4096 ∧
              (r.claim 1 3 8 16).1 = .error (.overlap 1 3) := by
    decide +kernel
  obtain ⟨c, -, hholds⟩ := (Option.any_eq_true _ _).mp hlaunch
  split at hholds
  · cases hholds
  rename_i h hhaunt
  split at hholds
  · cases hholds
  rename_i answer r hsteps
  obtain ⟨rfl, hlive, hbase, hclaim⟩ := of_decide_eq_true hholds
  have hentry : ∀ (id : Nat) (e : Live), r.live[id]? = some e ↔ id = 7 ∧ e = ⟨16, 20⟩ := by
    intro id e
    rw [← Std.TreeMap.mem_toList_iff_getElem?_eq_some, hlive, List.mem_singleton, Prod.mk.injEq]
  obtain ⟨hmoves, hexact⟩ := exact_along_replay { c.allocator with heap := h }
  obtain ⟨hr, hmachine⟩ := hexact r (hmoves false _ _ r hsteps)
  have hmeets := (hr.overlap 1 3 8 16 (by rw [Allocator.address, hbase]; decide) (by decide)).mp hclaim
  have hidle : r.live[3]? = none := Option.eq_none_iff_forall_ne_some.mpr fun e he => by
    simp [hentry] at he
  obtain ⟨-, hclaims⟩ := hmachine fun id b size hlive => by
    obtain ⟨-, hlive⟩ := (hentry id _).mp hlive
    obtain ⟨rfl, rfl⟩ := Live.mk.inj hlive
    decide
  have hsame := hclaims 1 3 8 16 hidle (by decide) (by rw [hbase]; decide) (by decide)
  exact ⟨_, r, hsteps, hmeets, hclaim, hsame⟩

end Replay

end SegregatedFit
