import SegregatedFit.Proofs.Trace.Outcome
import Mathlib.Data.Finmap
import Mathlib.Order.Bounds.Basic

/-!
What a trace means, with no heap in sight: a map from the live ids to the sizes asked for. A replay
keeps to it. It rejects the first operation on an id that the map does not have, it runs out of room
before that or not at all, and the peak it reports is the largest sum of sizes that the map came to.
-/

namespace SegregatedFit

def Op.id : Op → Nat
  | alloc id _ | free id | realloc id _ => id

-- The live ids with the sizes that were asked for.
abbrev Sizes := Finmap fun _ : Nat => Nat

namespace Sizes

variable {s : Sizes} {id id' size : Nat}

def total (s : Sizes) : Nat := (s.entries.map (·.2)).sum

def drop (s : Sizes) (id : Nat) : Sizes := s.erase id

-- To ask for nothing only drops what the id named.
def set (s : Sizes) (id size : Nat) : Sizes := if size = 0 then s.drop id else s.insert id size

def apply (s : Sizes) : Op → Sizes
  | .alloc id size | .realloc id size => s.set id size
  | .free id => s.drop id

-- To free or resize takes an id that is live.
def Rejects (s : Sizes) : Op → Prop
  | .alloc _ _ => False
  | .free id | .realloc id _ => id ∉ s

def after (ops : List Op) : Sizes := ops.foldl apply ∅

@[simp] theorem after_concat (done : List Op) (entry : Op) :
    after (done ++ [entry]) = (after done).apply entry :=
  List.foldl_concat ..

theorem lookup_drop : (s.drop id).lookup id' = if id = id' then none else s.lookup id' := by
  split
  case isTrue h =>
    subst h
    exact Finmap.lookup_erase id s
  case isFalse h => exact Finmap.lookup_erase_ne (Ne.symm h)

theorem lookup_insert : (s.insert id size).lookup id' = if id = id' then some size else s.lookup id' := by
  split
  case isTrue h =>
    subst h
    exact Finmap.lookup_insert s
  case isFalse h => exact Finmap.lookup_insert_of_ne s (Ne.symm h)

theorem notMem_drop : id ∉ s.drop id := Finmap.notMem_erase_self

theorem total_insert (h : id ∉ s) : total (s.insert id size) = s.total + size := by
  rw [total, Finmap.entries_insert_of_notMem h, Multiset.map_cons, Multiset.sum_cons, Nat.add_comm]
  rfl

theorem insert_drop : (s.drop id).insert id size = s.insert id size := by
  refine Finmap.ext_lookup fun id' => ?_
  rw [lookup_insert, lookup_insert, lookup_drop]
  split <;> rfl

theorem insert_eq_self (h : s.lookup id = some size) : s.insert id size = s := by
  refine Finmap.ext_lookup fun id' => ?_
  rw [lookup_insert]
  split
  case isTrue heq => rw [← heq, h]
  case isFalse => rfl

theorem total_drop (h : s.lookup id = some size) : (s.drop id).total + size = s.total := by
  rw [← total_insert notMem_drop, insert_drop, insert_eq_self h]

theorem drop_eq_self (h : id ∉ s) : s.drop id = s := by
  refine Finmap.ext_lookup fun id' => ?_
  rw [lookup_drop]
  split
  case isTrue heq => rw [← heq, Finmap.lookup_eq_none.mpr h]
  case isFalse => rfl

theorem set_drop : (s.drop id).set id size = s.set id size := by
  unfold set
  rw [insert_drop, drop_eq_self notMem_drop]

end Sizes

namespace Trace

-- No operation frees or resizes an id that is not live when its turn comes.
def Sensible (ops : List Op) : Prop :=
  ∀ done entry, done ++ [entry] <+: ops → ¬(Sizes.after done).Rejects entry

-- What the live sizes add up to from one operation to the next.
def totals (ops : List Op) : Set Nat := {n | ∃ done, done <+: ops ∧ (Sizes.after done).total = n}

-- What a replay that ends with so many bytes of heap may say of its operations.
inductive Account (ops : List Op) (heapBytes : Nat) : Except ReplayError ReplayStats → Prop
  | done {peak : Nat} (hsensible : Sensible ops) (hpeak : IsGreatest (totals ops) peak)
      (hroom : peak ≤ heapBytes) : Account ops heapBytes (.ok ⟨ops.length, peak, heapBytes⟩)
  | notLive {before rest : List Op} {entry : Op} (hops : ops = before ++ entry :: rest)
      (hsensible : Sensible before) (hrejects : (Sizes.after before).Rejects entry) :
      Account ops heapBytes (.error (.notLive before.length entry.id))
  | outOfMemory {before rest : List Op} {entry : Op} (hops : ops = before ++ entry :: rest)
      (hsensible : Sensible (before ++ [entry])) :
      Account ops heapBytes (.error (.outOfMemory before.length))

theorem sensible_nil : Sensible [] := fun done entry h => by simp at h

theorem Sensible.concat {ops : List Op} {entry : Op} (h : Sensible ops)
    (hentry : ¬(Sizes.after ops).Rejects entry) : Sensible (ops ++ [entry]) := by
  intro done entry' hprefix
  rcases List.prefix_concat_iff.mp hprefix with heq | hprefix
  · obtain ⟨rfl, hlast⟩ := List.append_inj' heq rfl
    obtain rfl : entry' = entry := List.singleton_inj.mp hlast
    exact hentry
  · exact h done entry' hprefix

theorem totals_nil : totals [] = {0} := by
  have hempty : (Sizes.after []).total = 0 := rfl
  ext n
  simp [totals, hempty, eq_comm]

theorem totals_concat (ops : List Op) (entry : Op) :
    totals (ops ++ [entry]) = insert (Sizes.after (ops ++ [entry])).total (totals ops) := by
  ext n
  constructor
  · rintro ⟨done, hprefix, rfl⟩
    rcases List.prefix_concat_iff.mp hprefix with rfl | hprefix
    · exact .inl rfl
    · exact .inr ⟨done, hprefix, rfl⟩
  · rintro (rfl | ⟨done, hprefix, rfl⟩)
    · exact ⟨_, List.prefix_rfl, rfl⟩
    · exact ⟨done, hprefix.trans (List.prefix_append ..), rfl⟩

end Trace

variable {ρ : Type}

namespace Replay

variable {r r' : Replay ρ} {s : Sizes} {id b size op : Nat}

-- The live ids of a replay and their sizes.
structure Tracks (s : Sizes) (r : Replay ρ) : Prop where
  lookup : ∀ id, s.lookup id = r.live[id]?.map (·.size)
  total : s.total = r.liveBytes
  le_peak : s.total ≤ r.peakLiveBytes

theorem tracks_start (a : Allocator ρ) : Tracks ∅ (start a) :=
  ⟨fun id => by simp [start], rfl, Nat.le_refl _⟩

namespace Tracks

theorem notMem_iff (h : Tracks s r) : id ∉ s ↔ r.live[id]? = none := by
  rw [← Finmap.lookup_eq_none, h.lookup, Option.map_eq_none_iff]

theorem without {e : Live} (h : Tracks s r) (hlive : r.live[id]? = some e) :
    Tracks (s.drop id) (r.without id e) := by
  have hlookup : s.lookup id = some e.size := by rw [h.lookup, hlive]; rfl
  have hdrop := Sizes.total_drop hlookup
  have htotal := h.total
  have hpeak := h.le_peak
  refine ⟨fun id' => ?_, ?_, ?_⟩
  · rw [Sizes.lookup_drop, Replay.without, getElem?_erase_nat, h.lookup]
    split <;> rfl
  · simp only [Replay.without]
    omega
  · simp only [Replay.without]
    omega

theorem enter (h : Tracks s r) (hidle : id ∉ s) (hpos : 0 < size) :
    Tracks (s.set id size) (r.enter id b size) := by
  have hset : s.set id size = s.insert id size := if_neg (Nat.ne_of_gt hpos)
  have hinsert : Sizes.total (s.insert id size) = s.total + size := Sizes.total_insert hidle
  have htotal := h.total
  rw [hset]
  refine ⟨fun id' => ?_, ?_, ?_⟩
  · rw [Sizes.lookup_insert, Replay.enter, getElem?_insert_nat, h.lookup]
    split <;> rfl
  · simp only [Replay.enter]
    omega
  · simp only [Replay.enter]
    omega

theorem contains_iff (h : Tracks s r) : r.live.contains id = true ↔ id ∈ s := by
  rw [← not_iff_not, h.notMem_iff, Std.TreeMap.contains_eq_isSome_getElem?]
  simp

-- An id that is taken out of the live ones was one of them, or is reported.
theorem release (h : Tracks s r) (id : Nat) :
    (id ∉ s ∧ r.release id = none) ∨
      ∃ e, id ∈ s ∧ r.release id = some (e, r.without id e) ∧ Tracks (s.drop id) (r.without id e) := by
  cases hlive : r.live[id]? with
  | none => exact .inl ⟨h.notMem_iff.mpr hlive, by simp [Replay.release, hlive]⟩
  | some e =>
      have hmem : id ∈ s := by
        rw [← not_not (a := id ∈ s), h.notMem_iff, hlive]
        exact Option.some_ne_none e
      exact .inr ⟨e, hmem, release_eq hlive, h.without hlive⟩

-- The allocator has no part in it.
theorem atop (h : Tracks s r) (a : Allocator ρ) : Tracks s (r.atop a) := ⟨h.lookup, h.total, h.le_peak⟩

end Tracks

-- How an operation on `id` ends that takes the sizes to `s` unless the id is dead.
inductive Told (dead : Prop) (s : Sizes) (op id peak : Nat) (r' : Replay ρ) :
    Except ReplayError Unit → Prop
  | done (halive : ¬dead) (htracks : Tracks s r') (hpeak : r'.peakLiveBytes = max s.total peak) :
      Told dead s op id peak r' (.ok ())
  | notLive (hdead : dead) : Told dead s op id peak r' (.error (.notLive op id))
  | outOfMemory (halive : ¬dead) : Told dead s op id peak r' (.error (.outOfMemory op))
  | other {error : ReplayError} (hbad : ¬error.Ordinary) : Told dead s op id peak r' (.error error)

section

variable {a : Allocator ρ} {answer : Except ReplayError Unit} {dead : Prop} {peak : Nat}

theorem not_ordinary_contentLost : ¬(ReplayError.contentLost op id).Ordinary := nofun

theorem told_retire (h : Tracks s r) (hretire : (r.retire op id).result = .ok (answer, r')) :
    Told (id ∉ s) (s.drop id) op id r.peakLiveBytes r' answer := by
  unfold retire at hretire
  rcases h.release id with ⟨hdead, hrelease⟩ | ⟨e, hmem, hrelease, hwithout⟩
  · simp only [hrelease, Run.result_pure] at hretire
    obtain ⟨rfl, rfl⟩ := Prod.mk.inj (Except.ok.inj hretire)
    exact .notLive hdead
  · simp only [hrelease, Run.result_bind] at hretire
    obtain ⟨intact, -, hretire⟩ := bind_eq_ok_iff.mp hretire
    cases intact with
    | false =>
        obtain ⟨rfl, -⟩ := Prod.mk.inj (Except.ok.inj hretire)
        exact .other not_ordinary_contentLost
    | true =>
        rw [if_pos rfl, Run.result_bind] at hretire
        obtain ⟨r₁, hfree, hretire⟩ := bind_eq_ok_iff.mp hretire
        obtain ⟨a, rfl⟩ := eq_atop_of_update hfree
        obtain ⟨rfl, rfl⟩ := Prod.mk.inj (Except.ok.inj hretire)
        have hpeak := hwithout.le_peak
        exact .done (not_not.mpr hmem) (hwithout.atop a) (Nat.max_eq_right hpeak).symm

variable [Reserve ρ]

theorem claim_cases (r : Replay ρ) (op id b size : Nat) :
    (∃ error, r.claim op id b size = (.error error, r) ∧ ¬error.Ordinary) ∨
      r.claim op id b size = (.ok (), r.enter id b size) := by
  unfold claim
  dsimp only
  split
  · exact .inl ⟨_, rfl, nofun⟩
  split
  · exact .inl ⟨_, rfl, nofun⟩
  · exact .inr rfl

omit [Reserve ρ] in
-- The end of every operation that hands out a block.
theorem told_fill (op : Nat) (h : Tracks s r) (hidle : id ∉ s) (hpos : 0 < size) (halive : ¬dead)
    (hfill : ((r.enter id b size).fill id b size).result = .ok r') :
    Told dead (s.set id size) op id r.peakLiveBytes r' (.ok ()) := by
  obtain ⟨a, rfl⟩ := eq_atop_of_update hfill
  have hentered := (h.enter (b := b) hidle hpos).atop a
  refine .done halive hentered ?_
  rw [hentered.total]
  exact Nat.max_comm ..

theorem told_obtain (h : Tracks s r) (hidle : id ∉ s)
    (hobtain : (r.obtain op id size).result = .ok (answer, r')) :
    Told False (s.set id size) op id r.peakLiveBytes r' answer := by
  unfold obtain at hobtain
  rcases Nat.eq_zero_or_pos size with rfl | hpos
  · rw [if_pos rfl] at hobtain
    obtain ⟨rfl, rfl⟩ := Prod.mk.inj (Except.ok.inj hobtain)
    have hset : s.set id 0 = s := Sizes.drop_eq_self hidle
    rw [hset]
    exact .done not_false h (Nat.max_eq_right h.le_peak).symm
  rw [if_neg (Nat.ne_of_gt hpos), Run.result_bind] at hobtain
  obtain ⟨⟨block, r₁⟩, hallocate, hobtain⟩ := bind_eq_ok_iff.mp hobtain
  obtain ⟨a, rfl⟩ := eq_atop_of_allocate hallocate
  cases block with
  | none =>
      obtain ⟨rfl, -⟩ := Prod.mk.inj (Except.ok.inj hobtain)
      exact .outOfMemory not_false
  | some b =>
      rcases claim_cases (r.atop a) op id b size with ⟨error, hclaim, hbad⟩ | hclaim
      · simp only [hclaim, Run.result_pure] at hobtain
        obtain ⟨rfl, -⟩ := Prod.mk.inj (Except.ok.inj hobtain)
        exact .other hbad
      · simp only [hclaim, Run.result_bind] at hobtain
        obtain ⟨r₂, hfill, hobtain⟩ := bind_eq_ok_iff.mp hobtain
        obtain ⟨rfl, rfl⟩ := Prod.mk.inj (Except.ok.inj hobtain)
        have htold := told_fill op (h.atop a) hidle hpos not_false hfill
        exact htold

theorem told_resize (h : Tracks s r) (hpos : 0 < size)
    (hstep : (r.step op (.realloc id size)).result = .ok (answer, r')) :
    Told (id ∉ s) (s.set id size) op id r.peakLiveBytes r' answer := by
  unfold step at hstep
  rcases h.release id with ⟨hdead, hrelease⟩ | ⟨e, hmem, hrelease, hwithout⟩
  · simp only [hrelease, Run.result_pure] at hstep
    obtain ⟨rfl, rfl⟩ := Prod.mk.inj (Except.ok.inj hstep)
    exact .notLive hdead
  have halive : ¬id ∉ s := not_not.mpr hmem
  simp only [hrelease, Run.result_bind] at hstep
  obtain ⟨intact, -, hstep⟩ := bind_eq_ok_iff.mp hstep
  cases intact with
  | false =>
      obtain ⟨rfl, -⟩ := Prod.mk.inj (Except.ok.inj hstep)
      exact .other not_ordinary_contentLost
  | true =>
      simp only [Bool.not_true, Bool.false_eq_true, if_false, Run.result_bind] at hstep
      obtain ⟨⟨block, r₁⟩, hreallocate, hstep⟩ := bind_eq_ok_iff.mp hstep
      obtain ⟨a, rfl⟩ := eq_atop_of_reallocate hreallocate
      cases block with
      | none =>
          simp only [if_neg (Nat.ne_of_gt hpos), Run.result_pure] at hstep
          obtain ⟨rfl, -⟩ := Prod.mk.inj (Except.ok.inj hstep)
          exact .outOfMemory halive
      | some b =>
          rcases claim_cases ((r.without id e).atop a) op id b size with ⟨error, hclaim, hbad⟩ | hclaim
          · simp only [hclaim, Run.result_pure] at hstep
            obtain ⟨rfl, -⟩ := Prod.mk.inj (Except.ok.inj hstep)
            exact .other hbad
          simp only [hclaim, Run.result_bind] at hstep
          obtain ⟨intact, -, hstep⟩ := bind_eq_ok_iff.mp hstep
          cases intact with
          | false =>
              obtain ⟨rfl, -⟩ := Prod.mk.inj (Except.ok.inj hstep)
              exact .other not_ordinary_contentLost
          | true =>
              simp only [Bool.not_true, Bool.false_eq_true, if_false, Run.result_bind] at hstep
              obtain ⟨r₂, hfill, hstep⟩ := bind_eq_ok_iff.mp hstep
              obtain ⟨rfl, rfl⟩ := Prod.mk.inj (Except.ok.inj hstep)
              have htold := told_fill op (hwithout.atop a) Sizes.notMem_drop hpos halive hfill
              rwa [Sizes.set_drop] at htold

theorem told_step (h : Tracks s r) {entry : Op} (hstep : (r.step op entry).result = .ok (answer, r')) :
    Told (s.Rejects entry) (s.apply entry) op entry.id r.peakLiveBytes r' answer := by
  cases entry with
  | alloc id size =>
      unfold step at hstep
      dsimp only at hstep
      by_cases hmem : id ∈ s
      · rw [if_pos (h.contains_iff.mpr hmem), Run.result_bind] at hstep
        obtain ⟨⟨answer₁, r₁⟩, hretire, hstep⟩ := bind_eq_ok_iff.mp hstep
        cases told_retire h hretire with
        | notLive hdead => exact absurd hmem hdead
        | outOfMemory halive =>
            obtain ⟨rfl, -⟩ := Prod.mk.inj (Except.ok.inj hstep)
            exact .outOfMemory not_false
        | other hbad =>
            obtain ⟨rfl, -⟩ := Prod.mk.inj (Except.ok.inj hstep)
            exact .other hbad
        | done halive htracks hpeak =>
            have htold := told_obtain htracks Sizes.notMem_drop hstep
            have hdrop : (s.drop id).total ≤ r.peakLiveBytes := by
              obtain ⟨size, hsize⟩ := Finmap.mem_iff.mp hmem
              have hdrop := Sizes.total_drop hsize
              have hle := h.le_peak
              omega
            rw [Sizes.set_drop, hpeak, Nat.max_eq_right hdrop] at htold
            exact htold
      · rw [if_neg (fun hcontains => hmem (h.contains_iff.mp hcontains))] at hstep
        exact told_obtain h hmem hstep
  | free id => exact told_retire h hstep
  | realloc id size =>
      rcases Nat.eq_zero_or_pos size with rfl | hpos
      · rw [(Backed.step_realloc_zero r op id).1] at hstep
        exact told_retire h hstep
      · exact told_resize h hpos hstep

-- A check changes nothing, and what it finds is never ordinary.
theorem told_checkedStep (h : Tracks s r) {entry : Op} {checked : Bool}
    (hstep : (r.checkedStep checked op entry).result = .ok (answer, r')) :
    Told (s.Rejects entry) (s.apply entry) op entry.id r.peakLiveBytes r' answer := by
  unfold checkedStep at hstep
  rw [Run.result_bind] at hstep
  obtain ⟨⟨answer₁, r₁⟩, hfirst, hstep⟩ := bind_eq_ok_iff.mp hstep
  have htold := told_step h hfirst
  cases answer₁ with
  | error error =>
      obtain ⟨rfl, rfl⟩ := Prod.mk.inj (Except.ok.inj hstep)
      exact htold
  | ok done =>
      cases checked with
      | false =>
          obtain ⟨rfl, rfl⟩ := Prod.mk.inj (Except.ok.inj hstep)
          exact htold
      | true =>
          simp only [Bool.not_true, Bool.false_eq_true, if_false, Run.result_bind] at hstep
          obtain ⟨verdict, -, hstep⟩ := bind_eq_ok_iff.mp hstep
          cases verdict with
          | ok done =>
              obtain ⟨rfl, rfl⟩ := Prod.mk.inj (Except.ok.inj hstep)
              exact htold
          | error corruption =>
              obtain ⟨rfl, -⟩ := Prod.mk.inj (Except.ok.inj hstep)
              exact .other nofun

end

open Trace Sizes in
theorem Backed.account [Reserve ρ] [FixedBase ρ] {others live : Finset Nat} {checked : Bool}
    {done rest : List Op} {log : Array Event} {answer : Except ReplayError Unit}
    (h : r.Backed others live) (htracks : Tracks (after done) r) (hsensible : Sensible done)
    (hpeak : IsGreatest (totals done) r.peakLiveBytes)
    (hroom : r.peakLiveBytes ≤ r.allocator.heap.memory.size)
    (hsteps : (steps checked r done.length log rest).result = .ok (answer, r'))
    (hsize : r'.allocator.heap.memory.size ≤ maxBlockSize) :
    Account (done ++ rest) r'.allocator.heap.memory.size
      (answer.map fun _ => r'.stats (done ++ rest).length) := by
  induction rest generalizing r live done log with
  | nil =>
      obtain ⟨rfl, rfl⟩ := Prod.mk.inj (Except.ok.inj hsteps)
      rw [List.append_nil]
      exact .done hsensible hpeak hroom
  | cons entry rest ih =>
      obtain ⟨answer₁, r₁, hends⟩ := h.exists_checkedStep checked done.length entry
      have hresult := hends.result
      have htold := told_checkedStep htracks hresult
      unfold steps at hsteps
      rcases hx : r.checkedStep checked done.length entry with ⟨result, more⟩
      rw [hx] at hresult hsteps
      obtain rfl : result = .ok (answer₁, r₁) := hresult
      cases answer₁ with
      | error error =>
          obtain ⟨rfl, rfl⟩ := Prod.mk.inj (Except.ok.inj hsteps)
          cases htold with
          | notLive hdead => exact .notLive rfl hsensible hdead
          | outOfMemory halive => exact .outOfMemory rfl (hsensible.concat halive)
          | other hbad => exact absurd (hends.ordinary hsize error rfl) hbad
      | ok nothing =>
          obtain ⟨live₁, hbacked⟩ := hends.backed
          cases htold with
          | done halive htracks' hpeak' =>
          rw [← after_concat] at htracks' hpeak'
          have hgreatest : IsGreatest (totals (done ++ [entry])) r₁.peakLiveBytes := by
            rw [totals_concat, hpeak']
            exact hpeak.insert _
          have hroom' : r₁.peakLiveBytes ≤ r₁.allocator.heap.memory.size := by
            have hgrown := hends.leaves.size_le
            have hlive := htracks'.total ▸ hbacked.liveBytes_le
            rw [hpeak']
            omega
          have hlength : done.length + 1 = (done ++ [entry]).length := by simp
          rw [hlength] at hsteps
          have haccount := ih hbacked htracks' (hsensible.concat halive) hgreatest hroom' hsteps
          simpa using haccount

end Replay

namespace Client

-- Whatever a trace asks for, its replay keeps to the plain meaning of it.
theorem account_of_replay [Reserve ρ] [FixedBase ρ] {c : Client ρ} (hreachable : c.Reachable)
    (haligned : Reserve.base c.allocator.reserve % alignment = 0) (t : Trace) (checked : Bool) :
    ∃ outcome a', (t.replay c.allocator checked).result = .ok (outcome, a') ∧
      (a'.heap.memory.size ≤ maxBlockSize → Trace.Account t.ops a'.heap.memory.size outcome) := by
  have hbacked := Replay.Backed.start hreachable haligned
  obtain ⟨answer, r', hends⟩ := hbacked.exists_steps checked 0 #[] t.ops
  refine ⟨_, r'.allocator, Trace.result_replay hends.result, fun hsize => ?_⟩
  have hpeak : IsGreatest (Trace.totals []) 0 := Trace.totals_nil ▸ isGreatest_singleton
  have htracks : Replay.Tracks (Sizes.after []) (Replay.start c.allocator) := Replay.tracks_start _
  exact hbacked.account htracks Trace.sensible_nil hpeak (Nat.zero_le _) hends.result hsize

theorem account_arena : ∃ (c : Client Arena) (a' : Allocator Arena) (heapBytes : Nat),
    c.Reachable ∧ c.live = {16} ∧
    (Trace.replay ⟨0, 8, 1, [.alloc 7 8, .realloc 7 20, .alloc 3 4, .alloc 7 3, .free 7, .alloc 3 0]⟩
      c.allocator true).result = .ok (.ok ⟨6, 24, heapBytes⟩, a') ∧
    IsGreatest
      (Trace.totals [.alloc 7 8, .realloc 7 20, .alloc 3 4, .alloc 7 3, .free 7, .alloc 3 0]) 24 := by
  let t : Trace :=
    ⟨0, 8, 1, [.alloc 7 8, .realloc 7 20, .alloc 3 4, .alloc 7 3, .free 7, .alloc 3 0]⟩
  have hlaunch : (launch (.ofReserve (Arena.withLimit 4096 256)) ⟨16, by decide, by decide, by decide⟩
      [.allocate 8]).any fun c => (c.live = {16} ∧ Reserve.base c.allocator.reserve = 4096) &&
        match (t.replay c.allocator true).result with
        | .error _ => false
        | .ok (outcome, a') => outcome = .ok ⟨6, 24, a'.heap.memory.size⟩ ∧
            a'.heap.memory.size ≤ 256 := by
    decide +kernel
  obtain ⟨c, hc, hholds⟩ := (Option.any_eq_true _ _).mp hlaunch
  obtain ⟨hbefore, hafter⟩ := Bool.and_eq_true_iff.mp hholds
  obtain ⟨hlive, hbase⟩ := of_decide_eq_true hbefore
  have hreachable : c.Reachable := .of_launch rfl hc
  obtain ⟨outcome, a', hreplay, haccount⟩ :=
    account_of_replay hreachable (by rw [hbase]; decide) t true
  rw [hreplay] at hafter
  obtain ⟨rfl, hsize⟩ := of_decide_eq_true hafter
  cases haccount (Nat.le_trans hsize (by decide)) with
  | done hsensible hpeak hroom => exact ⟨c, a', _, hreachable, hlive, hreplay, hpeak⟩

end Client

end SegregatedFit
