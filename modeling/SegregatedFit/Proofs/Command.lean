import SegregatedFit.Proofs.Command.Words
import SegregatedFit.Proofs.Machine.Command
import SegregatedFit.Proofs.Region.Arena
import SegregatedFit.Proofs.Trace.Outcome

/-!
What the replay command comes to. Its arguments choose a text, the text is read as a trace, and the trace is
replayed on a fresh arena; each of these may fail, and the command then ends with the reason. The only other
way in which it ends is that it stops at an argument that is no text. Flags change only what it tells on the
way, and how far it reads its arguments.
-/

namespace SegregatedFit

theorem Run.result_forM {α : Type} {f : α → Run Unit} (xs : List α)
    (hf : ∀ x, (f x).result = .ok ()) : (xs.forM f).result = .ok () := by
  induction xs with
  | nil => rfl
  | cons x xs ih =>
      change (f x >>= fun _ => xs.forM f).result = _
      rw [result_bind, hf x, ok_bind, ih]

-- The walks over a sound heap end, whether they are made or not.
theorem Allocator.result_dump {ρ : Type} {a : Allocator ρ} {bs : List BlockInfo} {ls : Lists}
    (hsound : a.heap.Sound bs ls) (filter : LevelFilter) : (a.dump filter).result = .ok () := by
  unfold dump
  by_cases hadmits : filter.admits .trace = true
  · rw [if_pos hadmits]
    simp only [Heap.trail_eq hsound.laid, Run.result_bind, Run.result_emit, Run.result_emitAll, ok_bind]
    refine Run.result_forM _ fun c => ?_
    simp only [hsound.holds.endless_eq, Bool.false_eq_true, if_false]
    split <;> rfl
  · rw [if_neg hadmits]
    rfl

namespace Arena

-- An arena stays what it is, and no more is taken from it than its limit.
theorem lasting_limit (arena : Arena) :
    Reserve.Lasting fun (r : Arena) len => r = arena ∧ len ≤ arena.limit where
  refused := by
    rintro _ len delta cause ⟨rfl, hlen⟩ -
    exact ⟨reserve_request _ len delta, hlen⟩
  granted := by
    rintro arena len delta fresh ⟨rfl, hlen⟩ hfresh
    refine ⟨reserve_request _ len delta, ?_⟩
    simp only [Reserve.request, request] at hfresh
    split at hfresh
    · cases hfresh
    split at hfresh
    · cases hfresh
    · omega

-- A trace on a fresh arena. There is always an allocator to start with; the heap stays so short that one tag
-- could span it, and so the replay goes wrong in the ordinary ways only.
theorem exists_replay {base : Nat} (hbase : base % alignment = 0) (t : Trace) :
    ∃ a outcome a' bs ls, (Allocator.init (.ofReserve (new base)) .default).result = .ok (.ok a) ∧
      (t.replay a true).result = .ok (outcome, a') ∧
      (∀ error, outcome = .error error → error.Ordinary) ∧ a'.heap.Sound bs ls ∧
      a'.heap.memory.size ≤ defaultLimit ∧
      (base + defaultLimit < Machine.wordLimit →
        Machine.init (.ofReserve (new base)) .default = some (.ok a) ∧
        Machine.replay t a true = some (outcome, a')) := by
  have hwhole : (new base).limit = 20971520 := rfl
  have hroom : 0 + 16 + 4096 ≤ (new base).limit := by omega
  obtain ⟨h, hinit, hsound⟩ := Allocator.init_of_room (.ofReserve (new base)) .default rfl hroom
  have hreachable : Client.Reachable ⟨⟨h, new base, .default⟩, ∅⟩ := .init rfl hinit
  have hstart : h.memory.size ≤ (new base).limit := by
    have htiles := hsound.laid.tiles
    have hchunk : ChunkSize.default.val = 4096 := rfl
    have hempty : (Region.ofReserve (new base)).memory.size = 0 := rfl
    simp only [Tiles] at htiles
    omega
  obtain ⟨answer, r', hends⟩ :=
    (Replay.Backed.start hreachable hbase).exists_steps true 0 #[] t.ops
  obtain ⟨live, hbacked⟩ := hends.backed
  obtain ⟨bs, ls, hinv⟩ := hbacked.reachable.exists_inv
  obtain ⟨hreserve, hsize⟩ := hends.leaves.lasting _ (lasting_limit (new base)) ⟨rfl, hstart⟩
  have hmax : r'.allocator.heap.memory.size ≤ maxBlockSize := by
    simp only [maxBlockSize]
    omega
  refine ⟨_, answer.map fun _ => r'.stats t.ops.length, r'.allocator, bs, ls, hinit,
    Trace.result_replay hends.result, fun error herror => ?_, hinv.sound, hsize, fun hlimit => ⟨?_, ?_⟩⟩
  · cases answer with
    | error error' =>
        obtain rfl := Except.error.inj herror
        exact hends.ordinary hmax _ rfl
    | ok done => cases herror
  · have hempty : 0 + 16 < 9223372036854775808 := by decide
    exact Machine.init_of rfl hempty hinit
  · refine Machine.replay_of (hends.machine ⟨hmax, ?_⟩ true)
    rw [hreserve]
    exact Nat.lt_of_le_of_lt (Nat.add_le_add_left hsize base) hlimit

end Arena

namespace Command

variable {call : Call} {args args' : List Arg} {read : String → Except ReadError ByteArray} {base : Nat}
  {text : String}

-- The text that is to be run: that of the file that is named, or the built-in one when none is.
inductive Chosen (args : List Arg) (read : String → Except ReadError ByteArray) :
    Except Failure String → Prop
  | builtin (hargs : ∀ a ∈ args, a = .ofText "-v") : Chosen args read (.ok builtin)
  | file {path text : String} (hpath : Names args path) (hread : read path = .ok text.toUTF8) :
      Chosen args read (.ok text)
  | unreadable {path : String} {cause : ReadError} (hpath : Names args path)
      (hread : read path = .error cause) : Chosen args read (.error (.unreadable path cause))
  | notUtf8 {path : String} {bytes : ByteArray} (hpath : Names args path) (hread : read path = .ok bytes)
      (hbytes : ∀ text : String, text.toUTF8 ≠ bytes) :
      Chosen args read (.error (.unreadable path .notUtf8))

-- What becomes of a text on a fresh arena at address `base`.
inductive Ends (base : Nat) (text : String) : Except Failure ReplayStats → Prop
  | badTrace {cause : TraceError} (hparse : Trace.parse text = .error cause) :
      Ends base text (.error (.badTrace cause))
  | replayed {t : Trace} {a a' : Allocator Arena} {outcome : Except ReplayError ReplayStats}
      (hparse : Trace.parse text = .ok t)
      (hinit : (Allocator.init (.ofReserve (Arena.new base)) .default).result = .ok (.ok a))
      (hreplay : (t.replay a true).result = .ok (outcome, a')) :
      Ends base text (outcome.mapError .replay)

-- What the command comes to: the numbers of a replay, or the reason why there are none.
inductive ComesTo (args : List Arg) (read : String → Except ReadError ByteArray) (base : Nat) :
    Except Failure ReplayStats → Prop
  | unchosen {failure : Failure} (hchosen : Chosen args read (.error failure)) :
      ComesTo args read base (.error failure)
  | run {text : String} {verdict : Except Failure ReplayStats} (hchosen : Chosen args read (.ok text))
      (hends : Ends base text verdict) : ComesTo args read base verdict

theorem chosen_iff {choice : Except Failure String} : Chosen args read choice ↔
    ∃ path, findArg (· ≠ "-v") args = .ok path ∧ choice = chooseText path read := by
  constructor
  · intro hchosen
    cases hchosen with
    | builtin hargs => exact ⟨none, findArg_eq_none_iff.mpr hargs, rfl⟩
    | @file path text hpath hread =>
        exact ⟨some path, names_iff.mp hpath, by simp only [chooseText, hread, fromUTF8?_toUTF8]⟩
    | @unreadable path cause hpath hread =>
        exact ⟨some path, names_iff.mp hpath, by simp only [chooseText, hread]⟩
    | @notUtf8 path bytes hpath hread hbytes =>
        have hnone := fromUTF8?_eq_none_iff.mpr hbytes
        exact ⟨some path, names_iff.mp hpath, by simp only [chooseText, hread, hnone]⟩
  · rintro ⟨path, hpath, rfl⟩
    cases path with
    | none => exact .builtin (findArg_eq_none_iff.mp hpath)
    | some path =>
        have hpath := names_iff.mpr hpath
        rw [chooseText]
        cases hread : read path with
        | error cause => exact .unreadable hpath hread
        | ok bytes =>
            dsimp only
            cases htext : String.fromUTF8? bytes with
            | none => exact .notUtf8 hpath hread (fromUTF8?_eq_none_iff.mp htext)
            | some text => exact .file hpath (fromUTF8?_eq_some_iff.mp htext ▸ hread)

-- There is no more than one end.
theorem Ends.unique {verdict verdict' : Except Failure ReplayStats} (h : Ends base text verdict)
    (h' : Ends base text verdict') : verdict' = verdict := by
  cases h with
  | badTrace hparse =>
      cases h' with
      | badTrace hparse' => rw [Except.error.inj (hparse.symm.trans hparse')]
      | replayed hparse' => cases hparse.symm.trans hparse'
  | replayed hparse hinit hreplay =>
      cases h' with
      | badTrace hparse' => cases hparse.symm.trans hparse'
      | replayed hparse' hinit' hreplay' =>
          obtain rfl := Except.ok.inj (hparse.symm.trans hparse')
          obtain rfl := Except.ok.inj (Except.ok.inj (hinit.symm.trans hinit'))
          rw [(Prod.mk.inj (Except.ok.inj (hreplay.symm.trans hreplay'))).1]

-- Every text comes to an end, whatever is told about it, and so it does on a machine.
theorem exists_ends (hbase : base % alignment = 0) (text : String) :
    ∃ verdict, Ends base text verdict ∧ (∀ cause, verdict = .error (.replay cause) → cause.Ordinary) ∧
      ∀ filter, (replayText filter base text).result = .ok verdict ∧
        (base + Arena.defaultLimit < Machine.wordLimit →
          Machine.replayText filter base text = some verdict) := by
  cases hparse : Trace.parse text with
  | error cause =>
      refine ⟨_, .badTrace hparse, fun cause' h => ?_, fun filter => ⟨?_, fun _ => ?_⟩⟩
      · cases h
      · simp [replayText, hparse]
      · simp [Machine.replayText, hparse]
  | ok t =>
      obtain ⟨a, outcome, a', bs, ls, hinit, hreplay, hordinary, hsound, hsize, hmachine⟩ :=
        Arena.exists_replay hbase t
      refine ⟨_, .replayed hparse hinit hreplay, fun cause h => ?_, fun filter => ⟨?_, fun hlimit => ?_⟩⟩
      · cases outcome with
        | error error =>
            obtain rfl := Failure.replay.inj (Except.error.inj h)
            exact hordinary error rfl
        | ok stats => cases h
      · simp only [replayText, hparse, Run.result_bind, hinit, hreplay, ok_bind]
        cases outcome with
        | error error => rfl
        | ok stats => simp [Allocator.result_dump hsound, Except.mapError]
      · obtain ⟨hstarted, hreplayed⟩ := hmachine hlimit
        simp only [Machine.replayText, hparse, hstarted, hreplayed, Option.bind_eq_bind, Option.bind_some]
        cases outcome with
        | error error => rfl
        | ok stats =>
            have hm : Machine.Spacious a'.heap.memory := by
              simp only [Arena.defaultLimit] at hsize
              exact .of_lt (by omega)
            simp [Machine.dump_of hm hsound, Except.mapError]

theorem newline_notMem_toDigits (n : Nat) : '\n' ∉ Nat.toDigits 10 n := fun hmem =>
  absurd (Nat.isDigit_of_mem_toDigits (by decide) (by decide) hmem) (by decide)

-- The summary is one line.
theorem exists_summary_eq (s : ReplayStats) : ∃ line, summary s = line ++ "\n" ∧ '\n' ∉ line.toList := by
  have hself : ∀ text : String, toString text = text := fun _ => rfl
  refine ⟨s!"{s.ops} ops, peak {s.peakLiveBytes} bytes live, heap {s.heapBytes} bytes, " ++
    s!"utilization {s.percentText}%", ?_, ?_⟩
  · apply String.toList_inj.mp
    simp [summary, hself]
  · simp [newline_notMem_toDigits, ReplayStats.percentText, Decimal.oneDecimal, hself]

section

variable (hargs : args'.filter (· ≠ .ofText "-v") = args.filter (· ≠ .ofText "-v"))

include hargs

theorem chosen_congr {choice : Except Failure String} :
    Chosen args' read choice ↔ Chosen args read choice := by
  simp only [chosen_iff, findArg_congr hargs]

theorem ComesTo.congr {verdict : Except Failure ReplayStats} (h : ComesTo args read base verdict) :
    ComesTo args' read base verdict := by
  cases h with
  | unchosen hchosen => exact .unchosen ((chosen_congr hargs).mpr hchosen)
  | run hchosen hends => exact .run ((chosen_congr hargs).mpr hchosen) hends

end

theorem Chosen.unique {choice choice' : Except Failure String} (h : Chosen args read choice)
    (h' : Chosen args read choice') : choice' = choice := by
  obtain ⟨path, hpath, rfl⟩ := chosen_iff.mp h
  obtain ⟨path', hpath', rfl⟩ := chosen_iff.mp h'
  rw [Except.ok.inj (hpath'.symm.trans hpath)]

theorem ComesTo.unique {verdict verdict' : Except Failure ReplayStats}
    (h : ComesTo args read base verdict) (h' : ComesTo args read base verdict') : verdict' = verdict := by
  cases h with
  | unchosen hchosen =>
      cases h' with
      | unchosen hchosen' => rw [Except.error.inj (hchosen.unique hchosen')]
      | run hchosen' => cases hchosen.unique hchosen'
  | run hchosen hends =>
      cases h' with
      | unchosen hchosen' => cases hchosen.unique hchosen'
      | run hchosen' hends' =>
          obtain rfl := Except.ok.inj (hchosen.unique hchosen')
          exact hends.unique hends'

-- The exit code and the standard output of a verdict.
inductive Shows (outcome : Outcome) : Except Failure ReplayStats → Prop
  | success {stats : ReplayStats} (hcode : outcome.code = 0) (hstdout : outcome.stdout = summary stats) :
      Shows outcome (.ok stats)
  | failure {failure : Failure} (hcode : outcome.code = 1) (hstdout : outcome.stdout = "")
      (hlast : outcome.stderr.getLast? = some failure.record.line) : Shows outcome (.error failure)

-- It is determined by the verdict.
theorem Shows.agree {outcome outcome' : Outcome} {verdict : Except Failure ReplayStats}
    (h : Shows outcome verdict) (h' : Shows outcome' verdict) :
    outcome'.code = outcome.code ∧ outcome'.stdout = outcome.stdout := by
  cases h with
  | success hcode hstdout =>
      cases h' with
      | success hcode' hstdout' => exact ⟨hcode'.trans hcode.symm, hstdout'.trans hstdout.symm⟩
  | failure hcode hstdout hlast =>
      cases h' with
      | failure hcode' hstdout' hlast' => exact ⟨hcode'.trans hcode.symm, hstdout'.trans hstdout.symm⟩

-- Errors are always told.
theorem Options.admits_error (o : Options) : o.filter.admits .error = true := by
  unfold Options.filter
  split <;> rfl

variable {o : Options}

theorem exists_shows_of_error {failure : Failure} (hoptions : Options.ofCall call = .ok o)
    (hchoice : chooseText o.path read = .error failure) (base : Nat) :
    ∃ outcome, run call read base = .ok outcome ∧ Shows outcome (.error failure) := by
  simp only [run, hoptions, ok_bind, hchoice]
  exact ⟨_, rfl, .failure rfl rfl (by simp [o.admits_error, Failure.record])⟩

theorem exists_shows_of_result {verdict : Except Failure ReplayStats}
    (hoptions : Options.ofCall call = .ok o) (hchoice : chooseText o.path read = .ok text)
    (hresult : (replayText o.filter base text).result = .ok verdict) :
    ∃ outcome, run call read base = .ok outcome ∧ Shows outcome verdict := by
  simp only [run, hoptions, ok_bind, hchoice, hresult]
  cases verdict with
  | ok stats => exact ⟨_, rfl, .success rfl rfl⟩
  | error failure => exact ⟨_, rfl, .failure rfl rfl (by simp [o.admits_error, Failure.record])⟩

theorem run_of_stops (hstops : Stops call) : run call read base = .error .unwrapped := by
  rw [run, ofCall_of_stops hstops, error_bind]

-- A command that is not stopped comes to one verdict, and shows it.
theorem exists_run (hbase : base % alignment = 0) (hruns : ¬Stops call)
    (read : String → Except ReadError ByteArray) :
    ∃ verdict outcome, ComesTo call.args read base verdict ∧ run call read base = .ok outcome ∧
      Shows outcome verdict ∧ (∀ cause, verdict = .error (.replay cause) → cause.Ordinary) ∧
      (base + Arena.defaultLimit < Machine.wordLimit → ∀ text, Chosen call.args read (.ok text) →
        ∀ filter, Machine.replayText filter base text = some verdict) := by
  obtain ⟨o, hoptions, hpath⟩ := exists_options hruns
  cases hchoice : chooseText o.path read with
  | error failure =>
      have hchosen := chosen_iff.mpr ⟨_, hpath, hchoice.symm⟩
      obtain ⟨outcome, hrun, hshows⟩ := exists_shows_of_error hoptions hchoice base
      refine ⟨.error failure, outcome, .unchosen hchosen, hrun, hshows, ?_, fun _ text htext => ?_⟩
      · rintro cause h
        obtain rfl := Except.error.inj h
        cases hchosen
      · cases hchosen.unique htext
  | ok text =>
      have hchosen := chosen_iff.mpr ⟨_, hpath, hchoice.symm⟩
      obtain ⟨verdict, hends, hordinary, hall⟩ := exists_ends hbase text
      obtain ⟨outcome, hrun, hshows⟩ := exists_shows_of_result hoptions hchoice (hall _).1
      refine ⟨verdict, outcome, .run hchosen hends, hrun, hshows, hordinary, ?_⟩
      intro hlimit text' htext filter
      obtain rfl := Except.ok.inj (hchosen.unique htext)
      exact (hall filter).2 hlimit

-- The command stops at an argument that is no text, if it comes to it. Otherwise there is one verdict,
-- whatever the arguments and the files are, and the command ends by showing it. Flags do not change what it
-- shows; without them it may come to an argument that it does not read otherwise.
theorem run_shows_verdict (hbase : base % alignment = 0) (call : Call)
    (read : String → Except ReadError ByteArray) :
    (∀ fault, run call read base = .error fault ↔ fault = .unwrapped ∧ Stops call) ∧
    ((∀ a ∈ call.name :: call.args, ∃ text, a = .ofText text) → ¬Stops call) ∧
    (¬Stops call → ∃ verdict outcome, (∀ v, ComesTo call.args read base v ↔ v = verdict) ∧
      run call read base = .ok outcome ∧
      (∀ stats, verdict = .ok stats → outcome.code = 0 ∧ outcome.stdout = summary stats ∧
        ∃ line, outcome.stdout = line ++ "\n" ∧ '\n' ∉ line.toList) ∧
      (∀ failure, verdict = .error failure → outcome.code = 1 ∧ outcome.stdout = "" ∧
        outcome.stderr.getLast? = some failure.record.line ∧
        ∀ cause, failure = .replay cause → cause.Ordinary) ∧
      (base + Arena.defaultLimit < Machine.wordLimit → ∀ text, Chosen call.args read (.ok text) →
        ∀ filter, Machine.replayText filter base text = some verdict)) ∧
    ∀ args', args'.filter (· ≠ .ofText "-v") = call.args.filter (· ≠ .ofText "-v") →
      (call.args.Sublist args' → Stops ⟨call.name, args'⟩ → Stops call) ∧
      ∀ outcome outcome', run call read base = .ok outcome →
        run ⟨call.name, args'⟩ read base = .ok outcome' →
        outcome'.code = outcome.code ∧ outcome'.stdout = outcome.stdout := by
  refine ⟨fun fault => ⟨fun hfault => ?_, ?_⟩, not_stops_of_texts, fun hruns => ?_, fun args' hargs =>
    ⟨Stops.of_sublist hargs, fun outcome outcome' hrun hrun' => ?_⟩⟩
  · by_cases hstops : Stops call
    · obtain rfl := Except.error.inj (hfault.symm.trans (run_of_stops hstops))
      exact ⟨rfl, hstops⟩
    · obtain ⟨verdict, outcome, -, hrun, -⟩ := exists_run hbase hstops read
      cases hfault.symm.trans hrun
  · rintro ⟨rfl, hstops⟩
    exact run_of_stops hstops
  · obtain ⟨verdict, outcome, hcomes, hrun, hshows, hordinary, hmachine⟩ := exists_run hbase hruns read
    refine ⟨verdict, outcome, fun v => ⟨hcomes.unique, fun h => h ▸ hcomes⟩, hrun, ?_, ?_, hmachine⟩
    · rintro stats rfl
      cases hshows with
      | success hcode hstdout =>
          obtain ⟨line, hline, hinline⟩ := exists_summary_eq stats
          exact ⟨hcode, hstdout, line, hstdout.trans hline, hinline⟩
    · rintro failure rfl
      cases hshows with
      | failure hcode hstdout hlast =>
          exact ⟨hcode, hstdout, hlast, fun cause hcause => hordinary cause (congrArg _ hcause)⟩
  · have hruns : ∀ {call outcome}, run call read base = .ok outcome → ¬Stops call :=
      fun hrun hstops => by cases hrun.symm.trans (run_of_stops hstops)
    obtain ⟨verdict, outcome, hcomes, hok, hshows, -⟩ := exists_run hbase (hruns hrun) read
    obtain ⟨verdict', outcome', hcomes', hok', hshows', -⟩ := exists_run hbase (hruns hrun') read
    obtain rfl := Except.ok.inj (hok.symm.trans hrun)
    obtain rfl := Except.ok.inj (hok'.symm.trans hrun')
    obtain rfl := (hcomes.congr hargs).unique hcomes'
    exact hshows.agree hshows'

-- The byte 255 is no text. It is not read when a flag and a name stand before it. The trace frees what it
-- has not allocated.
theorem run_shows_notLive : ∃ outcome,
    run ⟨.ofText "replay", [.ofText "-v", .ofText "trace", ⟨⟨#[255]⟩⟩]⟩
      (fun _ => .ok "0\n1\n1\n1\nf 0".toUTF8) 4096 = .ok outcome ∧
      outcome.code = 1 ∧ outcome.stdout = "" ∧
      outcome.stderr.getLast? = some "[ERROR] replay: replay failed: op 0: id 0 is not allocated" := by
  let text := "0\n1\n1\n1\nf 0"
  let t : Trace := ⟨0, 1, 1, [.free 0]⟩
  let args : List Arg := [.ofText "-v", .ofText "trace", ⟨⟨#[255]⟩⟩]
  have hbase : 4096 % alignment = 0 := rfl
  have hnames : Names args "trace" := ⟨[.ofText "-v"], _, rfl, by simp, by decide⟩
  have hparse : Trace.parse text = .ok t := by decide +kernel
  obtain ⟨a, -, -, -, -, hinit, -⟩ := Arena.exists_replay hbase t
  have hsteps : (Replay.steps true (.start a) 0 #[] t.ops).result =
      .ok (.error (.notLive 0 0), .start a) := rfl
  have hreplay : (t.replay a true).result = .ok (.error (.notLive 0 0), a) := Trace.result_replay hsteps
  have hcomes : ComesTo args (fun _ => .ok text.toUTF8) 4096 (.error (.replay (.notLive 0 0))) :=
    .run (.file hnames rfl) (.replayed hparse hinit hreplay)
  have hruns : ¬Stops ⟨.ofText "replay", args⟩ := by
    rw [stops_iff]
    decide +kernel
  obtain ⟨-, -, hverdict, -⟩ :=
    run_shows_verdict hbase ⟨.ofText "replay", args⟩ fun _ => .ok text.toUTF8
  obtain ⟨verdict, outcome, hverdict, hrun, -, hfailure, -⟩ := hverdict hruns
  obtain rfl := (hverdict _).mp hcomes
  obtain ⟨hcode, hstdout, hlast, -⟩ := hfailure _ rfl
  exact ⟨outcome, hrun, hcode, hstdout, hlast⟩

-- Without the flag it is read, and stops the program.
theorem run_stops_raw :
    run ⟨.ofText "replay", [⟨⟨#[255]⟩⟩]⟩ (fun _ => .error .notFound) 4096 = .error .unwrapped ∧
    run ⟨.ofText "replay", [.ofText "trace", ⟨⟨#[255]⟩⟩]⟩ (fun _ => .error .notFound) 4096 =
      .error .unwrapped ∧
    ∃ outcome, run ⟨.ofText "replay", [.ofText "-v", .ofText "trace", ⟨⟨#[255]⟩⟩]⟩
      (fun _ => .error .notFound) 4096 = .ok outcome ∧ outcome.code = 1 ∧ outcome.stdout = "" := by
  let reason := "[ERROR] replay: cannot read trace: No such file or directory (os error 2)"
  exact ⟨by decide +kernel, by decide +kernel, ⟨1, "", [reason]⟩, by decide +kernel, rfl, rfl⟩

end Command

end SegregatedFit
