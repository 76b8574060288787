import SegregatedFit.Proofs.Client.Plan
import SegregatedFit.Proofs.Client.Twin

/-!
Requests that fail. When the reserve has no more bytes to give, or when there is no block of the size that
is asked for, the heap and the handles stay exactly as they are. Later on nothing can tell that the request
has been made, as long as the reserve itself does not.
-/

namespace SegregatedFit

-- A reserve that keeps what it has handed out; there is an entry without bytes for every refusal.
structure Observed (ρ : Type) where
  inner : ρ
  outcomes : List (Option ByteArray)

namespace Observed

variable {ρ : Type}

def request [Reserve ρ] (r : Observed ρ) (len delta : Nat) : Answer (Observed ρ) delta :=
  let ⟨fresh, inner, log⟩ := Reserve.request r.inner len delta
  ⟨fresh, ⟨inner, r.outcomes ++ [fresh.toOption.map (·.1)]⟩, log⟩

instance [Reserve ρ] : Reserve (Observed ρ) where
  base r := Reserve.base r.inner
  request := request

end Observed

namespace Plan

variable {ρ σ : Type} [Reserve ρ] [Reserve σ]

-- The outcomes of what a plan asks for.
def outcomes (a : Allocator ρ) : Plan → List (Option ByteArray)
  | .settled _ => []
  | .asking delta _ => [(a.request delta).fresh.toOption.map (·.1)]

theorem length_outcomes (a : Allocator ρ) (b : Allocator σ) (plan : Plan) :
    (plan.outcomes a).length = (plan.outcomes b).length := by
  cases plan <;> rfl

-- What is kept of them by a reserve that keeps everything.
theorem outcomes_run {a : Allocator ρ} {b : Allocator (Observed ρ)} {plan : Plan} {answer : Option Block}
    (hrun : plan.run ⟨a.heap, ⟨a.reserve, []⟩, a.chunk⟩ = .ok (answer, b)) :
    b.reserve.outcomes = plan.outcomes a := by
  cases plan with
  | settled outcome =>
      obtain ⟨h, -, rfl⟩ := run_settled_eq_ok hrun
      rfl
  | asking delta granted =>
      obtain ⟨cause, -, -, rfl⟩ | ⟨fresh, b, h, -, -, -, rfl⟩ := run_asking_eq_ok hrun
      · rfl
      · rfl

-- All that a plan takes from the reserve is the outcome of what it asks for.
theorem exists_run {a a' : Allocator ρ} {plan : Plan} {answer : Option Block} {t : σ}
    (hsame : plan.outcomes ⟨a.heap, t, a.chunk⟩ = plan.outcomes a)
    (hrun : plan.run a = .ok (answer, a')) :
    ∃ t', plan.run ⟨a.heap, t, a.chunk⟩ = .ok (answer, ⟨a'.heap, t', a'.chunk⟩) := by
  cases plan with
  | settled outcome =>
      obtain ⟨h, rfl, rfl⟩ := run_settled_eq_ok hrun
      exact ⟨t, rfl⟩
  | asking delta granted =>
      have hfresh := List.singleton_inj.mp hsame
      obtain ⟨cause, hrefused, rfl, rfl⟩ | ⟨bytes, b, h, hhanded, hgranted, rfl, rfl⟩ :=
        run_asking_eq_ok hrun
      · rw [hrefused] at hfresh
        cases hother : (Allocator.request ⟨a.heap, t, a.chunk⟩ delta).fresh with
        | error cause' => exact ⟨_, by rw [run, hother]⟩
        | ok bytes => simp [hother, Except.toOption] at hfresh
      · rw [hhanded] at hfresh
        cases hother : (Allocator.request ⟨a.heap, t, a.chunk⟩ delta).fresh with
        | error cause => simp [hother, Except.toOption] at hfresh
        | ok bytes' =>
            rw [hother] at hfresh
            obtain rfl : bytes' = bytes := Subtype.ext (Option.some.inj hfresh)
            refine ⟨(Allocator.request ⟨a.heap, t, a.chunk⟩ delta).reserve, ?_⟩
            simp only [run, hother, hgranted]
            rfl

end Plan

theorem Request.Demands.liveAfter_none {r : Request} (hr : r.Demands) (live : Finset Nat) :
    r.liveAfter live none = live := by
  cases r with
  | allocate size => rfl
  | free block => cases hr
  | write b content => cases hr
  | reallocate block size =>
      have hsize : size ≠ 0 := hr
      simp [liveAfter, hsize]

theorem Outline.shift_zero (o : Outline) : o.shift 0 = o := by
  have hlists : o.lists.shift 0 = o.lists := funext fun k => List.map_id' (o.lists k)
  simp [shift, hlists, BlockInfo.shift]

namespace Client

section

variable {ρ σ : Type}

-- The same client upon another reserve, or upon its own after others have made use of it.
def upon (c : Client ρ) (s : σ) : Client σ :=
  ⟨⟨c.allocator.heap, s, c.allocator.chunk⟩, c.live⟩

-- Two clients that are the same but for their reserves.
structure Matches (c : Client ρ) (d : Client σ) : Prop where
  heap : d.allocator.heap = c.allocator.heap
  chunk : d.allocator.chunk = c.allocator.chunk
  live : d.live = c.live

-- Two clients with the same handles, the same blocks and the same lists of free ones.
structure Resembles (c : Client ρ) (d : Client σ) : Prop where
  live : d.live = c.live
  blocks : d.allocator.heap.blocks = c.allocator.heap.blocks
  chain : ∀ k, d.allocator.heap.index.chain k = c.allocator.heap.index.chain k
  size : d.allocator.heap.memory.size = c.allocator.heap.memory.size

theorem Matches.eq_upon {c : Client ρ} {d : Client σ} (h : c.Matches d) :
    d = c.upon d.allocator.reserve := by
  obtain ⟨⟨heap, reserve, chunk⟩, live⟩ := d
  obtain ⟨rfl, rfl, rfl⟩ := h
  rfl

variable [Reserve ρ]

-- The outcomes of the extensions that `r` asks the reserve for.
def observed (c : Client ρ) (r : Request) : List (Option ByteArray) :=
  match (r.run (c.upon (Observed.mk c.allocator.reserve [])).allocator).result with
  | .ok (_, a) => a.reserve.outcomes
  | .error _ => []

-- The outcomes of all extensions on the way.
def outcomes (c : Client ρ) : List Request → List (Option ByteArray)
  | [] => []
  | r :: rest =>
    if c.Admits r then
      match c.step r with
      | .ok (_, c') => c.observed r ++ c'.outcomes rest
      | .error _ => []
    else []

end

variable {ρ σ τ : Type} {c c' : Client ρ} {d : Client σ} {bs : List BlockInfo} {ls : Lists}
  {r : Request} {rs : List Request} {answer : Option Block} {o : Outline}

theorem Inv.upon (hinv : c.Inv bs ls) (s : σ) : (c.upon s).Inv bs ls := ⟨hinv.sound, hinv.live⟩

theorem Drawn.upon (h : c.Drawn o) (s : σ) : (c.upon s).Drawn o := ⟨h.depicts, h.live⟩

theorem Drawn.resembles (h : c.Drawn o) (h' : d.Drawn o) : c.Resembles d := by
  refine ⟨?_, ?_, fun k => ?_, ?_⟩
  · ext b
    rw [h.live, h'.live]
  · rw [Heap.blocks_eq h.depicts.sound.laid, Heap.blocks_eq h'.depicts.sound.laid]
  · rw [h.depicts.sound.holds.chain_eq, h'.depicts.sound.holds.chain_eq]
  · rw [h.depicts.size_eq, h'.depicts.size_eq]

variable [Reserve ρ] [Reserve σ] [Reserve τ]

omit [Reserve σ] in
theorem Inv.observed_eq (hinv : c.Inv bs ls) (hadmits : c.Admits r) :
    c.observed r = (r.plan c.allocator.heap c.allocator.chunk).outcomes c.allocator := by
  have hadmits' : (c.upon (Observed.mk c.allocator.reserve [])).Admits r := hadmits
  obtain ⟨answer, c', -, -, hstep, -, -⟩ := (hinv.upon _).exists_step hadmits'
  obtain ⟨⟨given, a⟩, hrun, -⟩ := bind_eq_ok_iff.mp hstep
  rw [observed, hrun]
  rw [r.result_run] at hrun
  exact Plan.outcomes_run hrun

theorem outcomes_cons (hadmits : c.Admits r) (hstep : c.step r = .ok (answer, c')) (rest : List Request) :
    c.outcomes (r :: rest) = c.observed r ++ c'.outcomes rest := by
  simp only [outcomes, if_pos hadmits, hstep]

-- A step of a client is one of the same client upon another reserve, when the outcomes are the same.
theorem Inv.exists_step_upon {t : σ} (hinv : c.Inv bs ls) (hadmits : c.Admits r)
    (hsame : (c.upon t).outcomes (r :: rs) = c.outcomes (r :: rs)) :
    ∃ answer c₁ t₁ bs₁ ls₁, c.step r = .ok (answer, c₁) ∧ (c.upon t).step r = .ok (answer, c₁.upon t₁) ∧
      c₁.Inv bs₁ ls₁ ∧ (c₁.upon t₁).outcomes rs = c₁.outcomes rs := by
  have hadmits' : (c.upon t).Admits r := hadmits
  obtain ⟨answer, c₁, bs₁, ls₁, hstep, hinv₁, -⟩ := hinv.exists_step hadmits
  obtain ⟨answer', d, -, -, hstep', -, -⟩ := (hinv.upon t).exists_step hadmits'
  rw [outcomes_cons hadmits hstep, outcomes_cons hadmits' hstep', hinv.observed_eq hadmits,
    (hinv.upon t).observed_eq hadmits'] at hsame
  obtain ⟨hnow, hrest⟩ := List.append_inj hsame (Plan.length_outcomes ..)
  obtain ⟨⟨given, a⟩, hrun, hdone⟩ := bind_eq_ok_iff.mp hstep
  obtain ⟨rfl, rfl⟩ := Prod.mk.inj (Except.ok.inj hdone)
  rw [r.result_run] at hrun
  obtain ⟨t₁, hrun'⟩ := Plan.exists_run hnow hrun
  have hstep₁ : (c.upon t).step r =
      .ok (given, (Client.mk a (r.liveAfter c.live given)).upon t₁) := by
    rw [step, r.result_run]
    exact bind_eq_ok_iff.mpr ⟨_, hrun', rfl⟩
  obtain ⟨rfl, rfl⟩ := Prod.mk.inj (Except.ok.inj (hstep₁.symm.trans hstep'))
  exact ⟨_, _, t₁, bs₁, ls₁, hstep, hstep', hinv₁, hrest⟩

theorem Inv.histories_match {t : σ} (hinv : c.Inv bs ls) (hsame : (c.upon t).outcomes rs = c.outcomes rs) :
    List.Forall₂ (fun x y => y.1 = x.1 ∧ x.2.Matches y.2) (c.history rs) ((c.upon t).history rs) := by
  induction rs generalizing c t bs ls with
  | nil => exact .nil
  | cons r rest ih =>
      by_cases hadmits : c.Admits r
      · have hadmits' : (c.upon t).Admits r := hadmits
        obtain ⟨answer, c₁, t₁, bs₁, ls₁, hstep, hstep', hinv₁, hrest⟩ :=
          hinv.exists_step_upon hadmits hsame
        simp only [history, if_pos hadmits, if_pos hadmits', hstep, hstep']
        exact .cons ⟨rfl, rfl, rfl, rfl⟩ (ih hinv₁ hrest)
      · have hadmits' : ¬(c.upon t).Admits r := hadmits
        rw [history, history, if_neg hadmits, if_neg hadmits']
        exact .nil

-- Which extensions are granted is enough to know the answers and the layout.
theorem Drawn.histories_resemble (h : c.Drawn o) (h' : d.Drawn o)
    (hchunk : d.allocator.chunk = c.allocator.chunk) (hagree : Agree (c.grants rs) (d.grants rs)) :
    List.Forall₂ (fun x y => y.1 = x.1 ∧ x.2.Resembles y.2) (c.history rs) (d.history rs) := by
  induction rs generalizing c d o with
  | nil => exact .nil
  | cons r rest ih =>
      rw [← o.shift_zero] at h'
      by_cases hadmits : c.Admits r
      · obtain ⟨answer, c₁, d₁, o₁, htakes, hadmits', htakes', hagree⟩ :=
          h.exists_takes_pair h' hchunk (Request.Similar.same r).alike hadmits hagree
        rw [htakes.history hadmits, htakes'.history hadmits']
        have hdrawn' := o₁.shift_zero ▸ htakes'.drawn
        refine .cons ⟨?_, htakes.drawn.resembles hdrawn'⟩ (ih htakes.drawn hdrawn' ?_ hagree)
        · cases answer <;> rfl
        · rw [htakes'.chunk, hchunk, htakes.chunk]
      · have hadmits' := mt (h.admits_iff h' (Request.Similar.same r).alike).mp hadmits
        rw [history, history, if_neg hadmits, if_neg hadmits']
        exact .nil

-- A request that there is no block for, whatever the reason, has left everything as it was but the
-- reserve. Whoever goes on cannot tell it from a request that has not been made: not at all when the same
-- bytes are handed out later on, and only from the content of fresh bytes when as much is granted.
theorem failure_atomic (hreachable : c.Reachable) (s : σ) (hr : r.Demands) (hadmits : c.Admits r) :
    ∃ answer d, (c.upon s).step r = .ok (answer, d) ∧ (answer = none → c.Matches d ∧
      ∀ (t : τ) (rs : List Request),
        ((c.upon t).outcomes rs = d.outcomes rs →
          List.Forall₂ (fun x y => y.1 = x.1 ∧ x.2.Matches y.2) (d.history rs) ((c.upon t).history rs)) ∧
        ((c.upon t).grants rs = d.grants rs →
          List.Forall₂ (fun x y => y.1 = x.1 ∧ x.2.Resembles y.2) (d.history rs)
            ((c.upon t).history rs))) := by
  obtain ⟨bs, ls, hinv⟩ := hreachable.exists_inv
  have hadmits' : (c.upon s).Admits r := hadmits
  obtain ⟨answer, d, -, -, hstep, -, -⟩ := (hinv.upon s).exists_step hadmits'
  refine ⟨answer, d, hstep, ?_⟩
  rintro rfl
  have hmatches : c.Matches d := by
    obtain ⟨⟨given, a⟩, hrun, hdone⟩ := bind_eq_ok_iff.mp hstep
    obtain ⟨rfl, rfl⟩ := Prod.mk.inj (Except.ok.inj hdone)
    rw [r.result_run] at hrun
    obtain ⟨hheap, hchunk⟩ := (hr.atomic _ _).run hrun
    exact ⟨hheap, hchunk, hr.liveAfter_none c.live⟩
  obtain ⟨u, rfl⟩ : ∃ u, d = c.upon u := ⟨_, hmatches.eq_upon⟩
  refine ⟨hmatches, fun t rs => ⟨fun hsame => (hinv.upon u).histories_match hsame, fun hsame => ?_⟩⟩
  have hdrawn : c.Drawn ⟨c.allocator.heap.prologue + 8, bs, ls⟩ := ⟨.of_sound hinv.sound, hinv.live⟩
  exact (hdrawn.upon u).histories_resemble (hdrawn.upon t) rfl (.inl (hsame ▸ List.prefix_rfl))

-- The third request for more bytes fails on schedule. Everything afterwards is as over an arena on which
-- nothing has failed, up to the request that is too large for both.
theorem failure_atomic_fault : ∃ (c d : Client (Scheduled Arena)) (t : Arena),
    c.step (.allocate 40) = .ok (none, d) ∧ c.Matches d ∧
    List.Forall₂ (fun x y => y.1 = x.1 ∧ x.2.Matches y.2)
      (d.history [.allocate 40, .free (some 16), .reallocate (some 32) 60, .allocate 8, .allocate 400])
      ((c.upon t).history
        [.allocate 40, .free (some 16), .reallocate (some 32) 60, .allocate 8, .allocate 400]) ∧
    (d.history [.allocate 40, .free (some 16), .reallocate (some 32) 60, .allocate 8,
      .allocate 400]).map (·.1) = [some 32, none, some 32, some 16, none] := by
  let rs : List Request :=
    [.allocate 40, .free (some 16), .reallocate (some 32) 60, .allocate 8, .allocate 400]
  have hlaunch : (launch (.ofReserve (Scheduled.wrap (Arena.withLimit 4096 160) 4096 [(2, .refused)]))
      ⟨16, by decide, by decide, by decide⟩ [.allocate 8]).any fun c =>
        (c.step (.allocate 40)).toOption.any fun (answer, d) => answer = none ∧
          (c.upon c.allocator.reserve.inner).outcomes rs = d.outcomes rs ∧
          (d.history rs).map (·.1) = [some 32, none, some 32, some 16, none] := by
    decide +kernel
  obtain ⟨c, hc, hholds⟩ := (Option.any_eq_true _ _).mp hlaunch
  obtain ⟨⟨answer, d⟩, hfailed, hanswer⟩ := (Option.any_eq_true _ _).mp hholds
  obtain ⟨rfl, houtcomes, hanswers⟩ := of_decide_eq_true hanswer
  obtain ⟨answer', d', hstep, hatomic⟩ :=
    failure_atomic (τ := Arena) (r := .allocate 40) (.of_launch rfl hc) c.allocator.reserve trivial
      ⟨nofun, trivial⟩
  have hstep' : c.step (.allocate 40) = .ok (answer', d') := hstep
  rw [hstep'] at hfailed
  obtain ⟨rfl, rfl⟩ := Prod.mk.inj (Option.some.inj hfailed)
  obtain ⟨hmatches, hlater⟩ := hatomic rfl
  exact ⟨c, d', c.allocator.reserve.inner, hstep', hmatches, (hlater _ rs).1 houtcomes, hanswers⟩

end Client

end SegregatedFit
