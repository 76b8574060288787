import SegregatedFit.Proofs.Trace.Replay

/-!
What a replay comes to. A trace of any length is run to its end, or to the first operation that finds no
room or names an id that is not live. As long as one tag could span the heap, the checks on the way find
nothing, so that it makes no difference whether they are made.
-/

namespace SegregatedFit

variable {ρ : Type} [Reserve ρ]

-- A check that passes reports nothing.
theorem Allocator.check_eq_pure {a : Allocator ρ} (h : a.check.result = .ok (.ok ())) :
    a.check = pure (.ok ()) := by
  have hverdict := (result_check a).symm.trans h
  rw [check, hverdict]
  rfl

namespace Replay

variable {r r' : Replay ρ} {others live : Finset Nat} {checked : Bool} {op : Nat} {entry : Op}
  {answer : Except ReplayError Unit}

theorem Backed.check_eq (h : r.Backed others live)
    (hsize : r.allocator.heap.memory.size ≤ maxBlockSize) : r.allocator.check = pure (.ok ()) :=
  Allocator.check_eq_pure (Client.check_of_reachable h.reachable hsize h.aligned).2

theorem Backed.machine_check (h : r.Backed others live) (hcompact : r.allocator.Compact) :
    Machine.check r.allocator.heap (Reserve.base r.allocator.reserve) = some (.ok ()) := by
  obtain ⟨bs, ls, hinv⟩ := h.reachable.exists_inv
  have hcheck := (Client.check_of_reachable h.reachable hcompact.size_le h.aligned).2
  exact Machine.check_of hinv.seeded hcompact.spacious hcompact.address_lt
    ((Allocator.result_check r.allocator).symm.trans hcheck)

variable [FixedBase ρ]

theorem Backed.exists_step (h : r.Backed others live) (op : Nat) (entry : Op) : ∃ answer r',
    Settles others r (r.step op entry) (Machine.Replay.step r op entry) answer r' := by
  cases entry with
  | alloc id size =>
      by_cases hcontains : r.live.contains id = true
      · obtain ⟨answer, r₁, hretire, hidle⟩ := h.exists_retire op id
        cases answer with
        | error error =>
            refine ⟨_, r₁, ⟨?_, fun hcompact => ?_, hretire.backed, hretire.leaves, hretire.ordinary⟩⟩
            · simp [step, hcontains, hretire.result]
            · simp [Machine.Replay.step, hcontains, hretire.machine hcompact]
        | ok done =>
            obtain ⟨live₁, hbacked⟩ := hretire.backed
            obtain ⟨answer, r', hobtain⟩ := hbacked.exists_obtain (hidle rfl) op size
            refine ⟨answer, r', ⟨?_, fun hcompact => ?_, hobtain.backed,
              hretire.leaves.trans hobtain.leaves, hobtain.ordinary⟩⟩
            · simp [step, hcontains, hretire.result, hobtain.result]
            · have hretired := hretire.machine (hcompact.of_leaves hobtain.leaves)
              simp [Machine.Replay.step, hcontains, hretired, hobtain.machine hcompact]
      · have hidle : r.live[id]? = none := by
          rw [Std.TreeMap.contains_eq_isSome_getElem?] at hcontains
          simpa using hcontains
        obtain ⟨answer, r', hobtain⟩ := h.exists_obtain hidle op size
        refine ⟨answer, r', ⟨?_, fun hcompact => ?_, hobtain.backed, hobtain.leaves, hobtain.ordinary⟩⟩
        · simp [step, hcontains, hobtain.result]
        · simp [Machine.Replay.step, hcontains, hobtain.machine hcompact]
  | free id =>
      obtain ⟨answer, r', hretire, -⟩ := h.exists_retire op id
      exact ⟨answer, r', hretire⟩
  | realloc id size =>
      rcases Nat.eq_zero_or_pos size with rfl | hpos
      · obtain ⟨answer, r', hretire, -⟩ := h.exists_retire op id
        obtain ⟨hstep, hmachine⟩ := step_realloc_zero r op id
        exact ⟨answer, r', hstep ▸ hmachine ▸ hretire⟩
      · exact h.exists_resize op hpos

-- How a run `x` of operations with or without checks ends, and `y` on a machine.
structure Ends (others : Finset Nat) (r : Replay ρ)
    (x : Bool → Run (Except ReplayError Unit × Replay ρ))
    (y : Bool → Option (Except ReplayError Unit × Replay ρ)) (checked : Bool)
    (answer : Except ReplayError Unit) (r' : Replay ρ) : Prop where
  result : (x checked).result = .ok (answer, r')
  backed : ∃ live, r'.Backed others live
  leaves : r.allocator.Leaves others r'.allocator
  ordinary : r'.allocator.heap.memory.size ≤ maxBlockSize →
    ∀ error, answer = .error error → error.Ordinary
  same : r'.allocator.heap.memory.size ≤ maxBlockSize → x (!checked) = x checked
  machine : r'.allocator.Compact → ∀ checked', y checked' = some (answer, r')

omit [FixedBase ρ] in
-- The check after an operation has nothing to report while one tag could span the heap.
theorem Settles.checkedStep_eq
    (h : Settles others r (r.step op entry) (Machine.Replay.step r op entry) answer r')
    (hsize : r'.allocator.heap.memory.size ≤ maxBlockSize) (checked : Bool) :
    r.checkedStep checked op entry = r.step op entry := by
  obtain ⟨live, hbacked⟩ := h.backed
  have hresult := h.result
  unfold checkedStep
  generalize r.step op entry = x at hresult
  obtain ⟨result, log⟩ := x
  obtain rfl : result = .ok (answer, r') := hresult
  cases answer with
  | error error => simp [bind, Run.bind, pure, Run.pure]
  | ok done => cases checked <;> simp [bind, Run.bind, pure, Run.pure, hbacked.check_eq hsize]

omit [FixedBase ρ] in
theorem Settles.machine_checkedStep
    (h : Settles others r (r.step op entry) (Machine.Replay.step r op entry) answer r')
    (hcompact : r'.allocator.Compact) (checked : Bool) :
    Machine.Replay.checkedStep r checked op entry = some (answer, r') := by
  obtain ⟨live, hbacked⟩ := h.backed
  have hstep := h.machine hcompact
  cases answer with
  | error error => simp [Machine.Replay.checkedStep, hstep]
  | ok done => cases checked <;> simp [Machine.Replay.checkedStep, hstep, hbacked.machine_check hcompact]

-- A check changes nothing; what it finds in a longer heap ends the replay.
theorem Backed.exists_checkedStep (h : r.Backed others live) (checked : Bool) (op : Nat) (entry : Op) :
    ∃ answer r', Ends others r (r.checkedStep · op entry) (Machine.Replay.checkedStep r · op entry)
      checked answer r' := by
  obtain ⟨answer, r', hstep⟩ := h.exists_step op entry
  suffices hresult : ∃ answer', (r.checkedStep checked op entry).result = .ok (answer', r') ∧
      (r'.allocator.heap.memory.size ≤ maxBlockSize → answer' = answer) by
    obtain ⟨answer', hresult, hanswer⟩ := hresult
    refine ⟨answer', r', hresult, hstep.backed, hstep.leaves, fun hsize => ?_, fun hsize => ?_,
      fun hcompact => ?_⟩
    · exact hanswer hsize ▸ hstep.ordinary
    · exact (hstep.checkedStep_eq hsize _).trans (hstep.checkedStep_eq hsize _).symm
    · exact hanswer hcompact.size_le ▸ hstep.machine_checkedStep hcompact
  by_cases hsize : r'.allocator.heap.memory.size ≤ maxBlockSize
  · exact ⟨answer, (congrArg Run.result (hstep.checkedStep_eq hsize checked)).trans hstep.result,
      fun _ => rfl⟩
  cases answer with
  | error error => exact ⟨.error error, by simp [checkedStep, hstep.result], fun _ => rfl⟩
  | ok done =>
      cases checked with
      | false => exact ⟨.ok (), by simp [checkedStep, hstep.result], fun _ => rfl⟩
      | true =>
          obtain ⟨live', hbacked⟩ := hstep.backed
          obtain ⟨bs, ls, hinv⟩ := hbacked.reachable.exists_inv
          obtain ⟨verdict, hverdict⟩ := Heap.exists_check r'.allocator.heap.index
            (Reserve.base r'.allocator.reserve) hinv.seeded
          have hcheck : r'.allocator.check.result = .ok verdict :=
            (Allocator.result_check r'.allocator).trans hverdict
          cases verdict with
          | ok done =>
              exact ⟨.ok (), by simp [checkedStep, hstep.result, hcheck], fun h => absurd h hsize⟩
          | error corruption =>
              exact ⟨.error (.corrupted op corruption), by simp [checkedStep, hstep.result, hcheck],
                fun h => absurd h hsize⟩

theorem Backed.exists_steps (h : r.Backed others live) (checked : Bool) (op : Nat) (log : Array Event)
    (ops : List Op) : ∃ answer r', Ends others r (steps · r op log ops)
      (Machine.Replay.steps · r op ops) checked answer r' := by
  induction ops generalizing r live op log with
  | nil => exact ⟨.ok (), r, rfl, ⟨live, h⟩, .refl _ _, by simp, fun _ => rfl, fun _ _ => rfl⟩
  | cons entry rest ih =>
      obtain ⟨answer₁, r₁, hstep⟩ := h.exists_checkedStep checked op entry
      have hresult := hstep.result
      have hsame := hstep.same
      rcases hx : r.checkedStep checked op entry with ⟨result, more⟩
      rw [hx] at hresult hsame
      obtain rfl : result = .ok (answer₁, r₁) := hresult
      cases answer₁ with
      | error error =>
          refine ⟨.error error, r₁, ?_, hstep.backed, hstep.leaves, hstep.ordinary, fun hsize => ?_,
            fun hcompact checked' => ?_⟩
          · simp only [steps, hx]
          · simp only [steps, hx, hsame hsize]
          · simp [Machine.Replay.steps, hstep.machine hcompact checked']
      | ok done =>
          obtain ⟨live₁, hbacked⟩ := hstep.backed
          obtain ⟨answer, r', hrest⟩ := ih hbacked (op + 1) (log ++ more)
          have hgrown := hrest.leaves.size_le
          refine ⟨answer, r', ?_, hrest.backed, hstep.leaves.trans hrest.leaves, hrest.ordinary,
            fun hsize => ?_, fun hcompact checked' => ?_⟩
          · simp only [steps, hx]
            exact hrest.result
          · simp only [steps, hx, hsame (Nat.le_trans hgrown hsize)]
            exact hrest.same hsize
          · have hfirst := hstep.machine (hcompact.of_leaves hrest.leaves) checked'
            simpa [Machine.Replay.steps, hfirst] using hrest.machine hcompact checked'

end Replay

-- The numbers that a replay of `ops` operations ends with.
def Replay.stats (r : Replay ρ) (ops : Nat) : ReplayStats :=
  ⟨ops, r.peakLiveBytes, r.allocator.heap.memory.size⟩

theorem Trace.result_replay {t : Trace} {a : Allocator ρ} {checked : Bool}
    {answer : Except ReplayError Unit} {r' : Replay ρ}
    (h : (Replay.steps checked (.start a) 0 #[] t.ops).result = .ok (answer, r')) :
    (t.replay a checked).result = .ok (answer.map fun _ => r'.stats t.ops.length, r'.allocator) := by
  simp only [replay, Run.result_bind, h, ok_bind]
  cases answer <;> rfl

theorem Machine.replay_of {t : Trace} {a : Allocator ρ} {checked : Bool}
    {answer : Except ReplayError Unit} {r' : SegregatedFit.Replay ρ}
    (h : Replay.steps checked (.start a) 0 t.ops = some (answer, r')) :
    replay t a checked = some (answer.map fun _ => r'.stats t.ops.length, r'.allocator) := by
  simp only [replay, h, Option.bind_eq_bind, Option.bind_some]
  cases answer <;> rfl

namespace Client

-- Whatever a trace asks for, and whatever others have allocated before.
theorem replay_of_reachable [FixedBase ρ] {c : Client ρ} (hreachable : c.Reachable)
    (haligned : Reserve.base c.allocator.reserve % alignment = 0) (t : Trace) (checked : Bool) :
    ∃ outcome a', (t.replay c.allocator checked).result = .ok (outcome, a') ∧
      (∃ live, c.live ⊆ live ∧ Reachable ⟨a', live⟩) ∧
      (∀ b ∈ c.live, ∃ content, c.allocator.payload b = .ok content ∧ a'.payload b = .ok content) ∧
      (a'.heap.memory.size ≤ maxBlockSize →
        (∀ error, outcome = .error error → error.Ordinary) ∧
        t.replay c.allocator (!checked) = t.replay c.allocator checked ∧
        a'.check.result = .ok (.ok ()) ∧
        (Reserve.base a'.reserve + a'.heap.memory.size < Machine.wordLimit →
          ∀ checked', Machine.replay t c.allocator checked' = some (outcome, a'))) := by
  obtain ⟨answer, r', hends⟩ :=
    (Replay.Backed.start hreachable haligned).exists_steps checked 0 #[] t.ops
  obtain ⟨live, hbacked⟩ := hends.backed
  refine ⟨answer.map fun _ => r'.stats t.ops.length, r'.allocator, Trace.result_replay hends.result,
    ⟨live, hbacked.kept, hbacked.reachable⟩, ?_, fun hsize => ⟨?_, ?_, ?_, fun haddress checked' => ?_⟩⟩
  · intro b hb
    obtain ⟨-, content, -, hcontent, -⟩ := (refines_ledger hreachable).1.entries b hb
    have hread := (ledger_eq_some_iff.mp hcontent).2
    exact ⟨content, hread, (hends.leaves.payload b hb).1.trans hread⟩
  · intro error herror
    cases answer with
    | error error' =>
        obtain rfl := Except.error.inj herror
        exact hends.ordinary hsize _ rfl
    | ok done => cases herror
  · simp only [Trace.replay, hends.same hsize]
  · rw [hbacked.check_eq hsize]
    rfl
  · exact Machine.replay_of (hends.machine ⟨hsize, haddress⟩ checked')

theorem replay_arena : ∃ (c : Client Arena) (a' : Allocator Arena), c.Reachable ∧ c.live = {16} ∧
    (Trace.replay ⟨0, 8, 1, [.alloc 7 8, .realloc 7 20, .alloc 7 4, .free 7, .free 7]⟩
      c.allocator true).result = .ok (.error (.notLive 4 7), a') ∧
    a'.payload 16 = c.allocator.payload 16 ∧ a'.check.result = .ok (.ok ()) := by
  let t : Trace := ⟨0, 8, 1, [.alloc 7 8, .realloc 7 20, .alloc 7 4, .free 7, .free 7]⟩
  have hlaunch : (launch (.ofReserve (Arena.withLimit 4096 256)) ⟨16, by decide, by decide, by decide⟩
      [.allocate 8]).any fun c => (c.live = {16} ∧ Reserve.base c.allocator.reserve = 4096) &&
        match (t.replay c.allocator true).result with
        | .error _ => false
        | .ok (outcome, a') => outcome = .error (.notLive 4 7) ∧ a'.heap.memory.size ≤ 256 := by
    decide +kernel
  obtain ⟨c, hc, hholds⟩ := (Option.any_eq_true _ _).mp hlaunch
  obtain ⟨hbefore, hafter⟩ := Bool.and_eq_true_iff.mp hholds
  obtain ⟨hlive, hbase⟩ := of_decide_eq_true hbefore
  have hreachable : c.Reachable := .of_launch rfl hc
  obtain ⟨outcome, a', hreplay, -, hpayload, hsmall⟩ :=
    replay_of_reachable hreachable (by rw [hbase]; decide) t true
  rw [hreplay] at hafter
  obtain ⟨rfl, hsize⟩ := of_decide_eq_true hafter
  obtain ⟨content, hbefore, hkept⟩ := hpayload 16 (by simp [hlive])
  obtain ⟨-, -, hcheck, -⟩ := hsmall (Nat.le_trans hsize (by decide))
  exact ⟨c, a', hreachable, hlive, hreplay, hkept.trans hbefore.symm, hcheck⟩

end Client

end SegregatedFit
