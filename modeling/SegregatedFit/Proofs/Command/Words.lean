import SegregatedFit.Command
import Mathlib.Logic.Basic

/-!
How far the command reads its words. It reads them one by one, once for a flag and once more for a name, and
stops at a word that is no text if it comes to it. Flags behind the name of the program change nothing else.
-/

namespace SegregatedFit.Command

variable {call : Call} {args args' : List Arg} {text : String} {p : String → Bool}

theorem fromUTF8?_eq_some_iff {bytes : ByteArray} :
    String.fromUTF8? bytes = some text ↔ text.toUTF8 = bytes := by
  unfold String.fromUTF8?
  split
  · rename_i hvalid
    constructor
    · intro h
      obtain rfl := Option.some.inj h
      rfl
    · rintro rfl
      rfl
  · rename_i hinvalid
    refine iff_of_false (fun h => nomatch h) ?_
    rintro rfl
    exact hinvalid text.isValidUTF8

theorem fromUTF8?_toUTF8 (text : String) : String.fromUTF8? text.toUTF8 = some text :=
  fromUTF8?_eq_some_iff.mpr rfl

theorem fromUTF8?_eq_none_iff {bytes : ByteArray} :
    String.fromUTF8? bytes = none ↔ ∀ text : String, text.toUTF8 ≠ bytes := by
  simp only [Option.eq_none_iff_forall_ne_some, ne_eq, fromUTF8?_eq_some_iff]

namespace Arg

variable {a : Arg}

-- The argument is no text.
def Raw (a : Arg) : Prop := ∀ text : String, a ≠ .ofText text

@[simp] theorem decode_ofText (text : String) : (ofText text).decode = .ok text := by
  simp only [decode, ofText, fromUTF8?_toUTF8]

theorem ofText_inj {text text' : String} : ofText text = ofText text' ↔ text = text' := by
  refine ⟨fun h => ?_, congrArg ofText⟩
  have hdecode := congrArg decode h
  rw [decode_ofText, decode_ofText] at hdecode
  exact Except.ok.inj hdecode

theorem decode_of_raw (hraw : a.Raw) : a.decode = .error .unwrapped := by
  have hnone : String.fromUTF8? a.bytes = none :=
    fromUTF8?_eq_none_iff.mpr fun text h => hraw text (congrArg Arg.mk h.symm)
  simp only [decode, hnone]

theorem raw_or_ofText (a : Arg) : a.Raw ∨ ∃ text, a = ofText text := by
  by_cases htext : ∃ text, a = ofText text
  · exact .inr htext
  · exact .inl (not_exists.mp htext)

end Arg

-- What comes of looking for a text that satisfies `p`.
inductive Finds (p : String → Bool) : List Arg → Except Fault (Option String) → Prop
  | none {args : List Arg} (hargs : ∀ a ∈ args, ∃ text, a = .ofText text ∧ p text = false) :
      Finds p args (.ok none)
  | some {before rest : List Arg} {text : String}
      (hbefore : ∀ a ∈ before, ∃ text, a = .ofText text ∧ p text = false) (htext : p text = true) :
      Finds p (before ++ .ofText text :: rest) (.ok (some text))
  | raw {before rest : List Arg} {a : Arg} (hraw : a.Raw)
      (hbefore : ∀ text, p text = true → .ofText text ∉ before) :
      Finds p (before ++ a :: rest) (.error .unwrapped)

theorem findArg_append {before : List Arg} (rest : List Arg)
    (hbefore : ∀ a ∈ before, ∃ text, a = .ofText text ∧ p text = false) :
    findArg p (before ++ rest) = findArg p rest := by
  induction before with
  | nil => rfl
  | cons a before ih =>
      obtain ⟨text, rfl, htext⟩ := hbefore a List.mem_cons_self
      rw [List.cons_append, findArg, Arg.decode_ofText, ok_bind, if_neg (Bool.eq_false_iff.mp htext)]
      exact ih fun a ha => hbefore a (List.mem_cons_of_mem _ ha)

theorem Finds.eq {found : Except Fault (Option String)} (h : Finds p args found) :
    findArg p args = found := by
  cases h with
  | none hargs =>
      have happend := findArg_append [] hargs
      rwa [List.append_nil] at happend
  | some hbefore htext =>
      rw [findArg_append _ hbefore, findArg, Arg.decode_ofText, ok_bind, if_pos htext]
      rfl
  | @raw before rest a hraw hbefore =>
      induction before with
      | nil => rw [List.nil_append, findArg, Arg.decode_of_raw hraw, error_bind]
      | cons b before ih =>
          have hbehind := ih fun text htext hmem => hbefore text htext (List.mem_cons_of_mem _ hmem)
          rw [List.cons_append, findArg]
          rcases b.raw_or_ofText with hraw' | ⟨text, rfl⟩
          · rw [Arg.decode_of_raw hraw', error_bind]
          · have htext : ¬p text = true := fun htext => hbefore text htext List.mem_cons_self
            rw [Arg.decode_ofText, ok_bind, if_neg htext, hbehind]

theorem exists_finds (p : String → Bool) (args : List Arg) : ∃ found, Finds p args found := by
  induction args with
  | nil => exact ⟨_, .none (by simp)⟩
  | cons a args ih =>
      have hnone : ∀ text, p text = true → Arg.ofText text ∉ ([] : List Arg) := by simp
      have hempty : ∀ a ∈ ([] : List Arg), ∃ text, a = .ofText text ∧ p text = false := by simp
      rcases a.raw_or_ofText with hraw | ⟨text, rfl⟩
      · exact ⟨_, .raw hraw hnone⟩
      cases htext : p text with
      | true => exact ⟨_, .some hempty htext⟩
      | false =>
          obtain ⟨found, hfound⟩ := ih
          cases hfound with
          | none hargs =>
              exact ⟨_, .none (List.forall_mem_cons.mpr ⟨⟨text, rfl, htext⟩, hargs⟩)⟩
          | some hbefore htext' =>
              have hbefore' := List.forall_mem_cons.mpr ⟨⟨text, rfl, htext⟩, hbefore⟩
              exact ⟨_, .some hbefore' htext'⟩
          | @raw before rest a hraw hbefore =>
              have hbefore' : ∀ text', p text' = true → Arg.ofText text' ∉ .ofText text :: before := by
                intro text' htext' hmem
                rcases List.mem_cons.mp hmem with hsame | hmem
                · rw [Arg.ofText_inj.mp hsame, htext] at htext'
                  cases htext'
                · exact hbefore text' htext' hmem
              exact ⟨_, .raw hraw hbefore'⟩

theorem finds_iff {found : Except Fault (Option String)} :
    Finds p args found ↔ findArg p args = found := by
  refine ⟨Finds.eq, ?_⟩
  rintro rfl
  obtain ⟨found, hfound⟩ := exists_finds p args
  exact hfound.eq ▸ hfound

theorem findArg_eq_error_iff {fault : Fault} : findArg p args = .error fault ↔
    fault = .unwrapped ∧ ∃ before a rest, args = before ++ a :: rest ∧ a.Raw ∧
      ∀ text, p text = true → .ofText text ∉ before := by
  rw [← finds_iff]
  constructor
  · intro h
    cases h with
    | raw hraw hbefore => exact ⟨rfl, _, _, _, rfl, hraw, hbefore⟩
  · rintro ⟨rfl, before, a, rest, rfl, hraw, hbefore⟩
    exact .raw hraw hbefore

-- When the program stops: at an argument that is no text, if it comes to it. It reads its words up to the
-- first flag, and the arguments once more up to the one that names a file.
inductive Stops (call : Call) : Prop
  | flag {before rest : List Arg} {a : Arg} (hwords : call.name :: call.args = before ++ a :: rest)
      (hraw : a.Raw) (hbefore : .ofText "-v" ∉ before) : Stops call
  | path {before rest : List Arg} {a : Arg} (hargs : call.args = before ++ a :: rest) (hraw : a.Raw)
      (hbefore : ∀ text, text ≠ "-v" → .ofText text ∉ before) : Stops call

theorem stops_iff : Stops call ↔ findArg (· = "-v") (call.name :: call.args) = .error .unwrapped ∨
    findArg (· ≠ "-v") call.args = .error .unwrapped := by
  simp only [findArg_eq_error_iff, true_and, decide_eq_true_eq, forall_eq]
  constructor
  · rintro (⟨hwords, hraw, hbefore⟩ | ⟨hargs, hraw, hbefore⟩)
    · exact .inl ⟨_, _, _, hwords, hraw, hbefore⟩
    · exact .inr ⟨_, _, _, hargs, hraw, hbefore⟩
  · rintro (⟨_, _, _, hwords, hraw, hbefore⟩ | ⟨_, _, _, hargs, hraw, hbefore⟩)
    · exact .flag hwords hraw hbefore
    · exact .path hargs hraw hbefore

-- Nothing stops it when all words are texts.
theorem not_stops_of_texts (htexts : ∀ a ∈ call.name :: call.args, ∃ text, a = .ofText text) :
    ¬Stops call := by
  rintro (@⟨before, rest, a, hwords, hraw, -⟩ | @⟨before, rest, a, hargs, hraw, -⟩)
  · obtain ⟨text, htext⟩ := htexts a (by rw [hwords]; exact List.mem_append_cons_self)
    exact hraw text htext
  · have hmem : a ∈ call.args := by rw [hargs]; exact List.mem_append_cons_self
    obtain ⟨text, htext⟩ := htexts a (List.mem_cons_of_mem _ hmem)
    exact hraw text htext

theorem ofCall_of_stops (hstops : Stops call) : Options.ofCall call = .error .unwrapped := by
  rcases stops_iff.mp hstops with hflag | hpath
  · rw [Options.ofCall, hflag, error_bind]
  · cases hflag : findArg (· = "-v") (call.name :: call.args) with
    | error fault =>
        obtain ⟨rfl, -⟩ := findArg_eq_error_iff.mp hflag
        rw [Options.ofCall, hflag, error_bind]
    | ok flag => rw [Options.ofCall, hflag, ok_bind, hpath, error_bind]

theorem exists_options (hruns : ¬Stops call) :
    ∃ o, Options.ofCall call = .ok o ∧ findArg (· ≠ "-v") call.args = .ok o.path := by
  rw [stops_iff, not_or] at hruns
  cases hflag : findArg (· = "-v") (call.name :: call.args) with
  | error fault =>
      obtain ⟨rfl, -⟩ := findArg_eq_error_iff.mp hflag
      exact absurd hflag hruns.1
  | ok flag =>
      cases hpath : findArg (· ≠ "-v") call.args with
      | error fault =>
          obtain ⟨rfl, -⟩ := findArg_eq_error_iff.mp hpath
          exact absurd hpath hruns.2
      | ok path => exact ⟨⟨path, flag.isSome⟩, by simp only [Options.ofCall, hflag, hpath]; rfl, rfl⟩

-- The first argument that is not a flag.
def Names (args : List Arg) (path : String) : Prop :=
  ∃ flags rest, args = flags ++ .ofText path :: rest ∧ (∀ flag ∈ flags, flag = .ofText "-v") ∧
    path ≠ "-v"

theorem forall_flag_iff :
    (∀ a ∈ args, ∃ text, a = .ofText text ∧ decide (text ≠ "-v") = false) ↔
      ∀ a ∈ args, a = .ofText "-v" := by
  refine forall₂_congr fun a _ => ⟨?_, fun h => ⟨_, h, by decide⟩⟩
  rintro ⟨text, rfl, htext⟩
  rw [not_not.mp (of_decide_eq_false htext)]

theorem findArg_eq_none_iff : findArg (· ≠ "-v") args = .ok none ↔ ∀ a ∈ args, a = .ofText "-v" := by
  rw [← finds_iff, ← forall_flag_iff]
  constructor
  · intro h
    cases h with
    | none hargs => exact hargs
  · exact .none

theorem names_iff {path : String} : Names args path ↔ findArg (· ≠ "-v") args = .ok (some path) := by
  rw [← finds_iff]
  constructor
  · rintro ⟨flags, rest, rfl, hflags, hpath⟩
    exact .some (forall_flag_iff.mpr hflags) (decide_eq_true hpath)
  · intro h
    cases h with
    | some hbefore htext => exact ⟨_, _, rfl, forall_flag_iff.mp hbefore, of_decide_eq_true htext⟩

-- Flags have no say in what is run.
theorem findArg_filter (args : List Arg) :
    findArg (· ≠ "-v") (args.filter (· ≠ .ofText "-v")) = findArg (· ≠ "-v") args := by
  induction args with
  | nil => rfl
  | cons a args ih =>
      by_cases hflag : a = .ofText "-v"
      · subst hflag
        rw [List.filter_cons_of_neg (by simp), ih, findArg, Arg.decode_ofText, ok_bind, if_neg (by simp)]
      · rw [List.filter_cons_of_pos (by simpa using hflag), findArg, findArg]
        rcases a.raw_or_ofText with hraw | ⟨text, rfl⟩
        · rw [Arg.decode_of_raw hraw, error_bind, error_bind]
        · have htext : decide (text ≠ "-v") = true :=
            decide_eq_true fun htext => hflag (congrArg _ htext)
          rw [Arg.decode_ofText, ok_bind, ok_bind, if_pos htext, if_pos htext]

theorem findArg_congr (hargs : args'.filter (· ≠ .ofText "-v") = args.filter (· ≠ .ofText "-v")) :
    findArg (· ≠ "-v") args' = findArg (· ≠ "-v") args := by
  rw [← findArg_filter args', hargs, findArg_filter]

-- Words that come before any flag stay in front when flags are taken out behind them.
theorem prefix_of_sublist {flag : Arg} {front rest : List Arg} (hfront : flag ∉ front)
    (hsub : args.Sublist (front ++ rest))
    (hargs : (front ++ rest).filter (· ≠ flag) = args.filter (· ≠ flag)) : front <+: args := by
  induction front generalizing args with
  | nil => exact List.nil_prefix
  | cons x front ih =>
      obtain ⟨hx, hfront⟩ := not_or.mp (mt List.mem_cons.mpr hfront)
      have hkept : decide (x ≠ flag) = true := decide_eq_true (Ne.symm hx)
      rw [List.cons_append] at hsub hargs
      have hfilter : ∀ words : List Arg,
          (x :: words).filter (· ≠ flag) = x :: words.filter (· ≠ flag) :=
        fun _ => List.filter_cons_of_pos hkept
      rw [hfilter] at hargs
      cases hsub with
      | cons _ hsub =>
          -- `x` would be taken out, which is no flag
          have hle := (hsub.filter (· ≠ flag)).length_le
          have hlength := congrArg List.length hargs
          rw [List.length_cons] at hlength
          omega
      | cons_cons _ hsub =>
          rw [hfilter] at hargs
          exact List.cons_prefix_cons.mpr ⟨rfl, ih hfront hsub (List.cons.inj hargs).2⟩

-- To put in flags does not stop the program.
theorem Stops.of_sublist (hargs : args'.filter (· ≠ .ofText "-v") = call.args.filter (· ≠ .ofText "-v"))
    (hsub : call.args.Sublist args') (hstops : Stops ⟨call.name, args'⟩) : Stops call := by
  cases hstops with
  | path hsplit hraw hbefore =>
      refine stops_iff.mpr (.inr ((findArg_congr hargs).symm.trans ?_))
      exact findArg_eq_error_iff.mpr ⟨rfl, _, _, _, hsplit, hraw, by simpa using hbefore⟩
  | @flag before rest a hwords hraw hbefore =>
      cases before with
      | nil =>
          have hname : call.name = a := (List.cons.inj hwords).1
          exact .flag (congrArg (· :: call.args) hname) hraw List.not_mem_nil
      | cons word before =>
          obtain ⟨hword, hsplit⟩ := List.cons.inj hwords
          have hfront : Arg.ofText "-v" ∉ before ++ [a] := by
            simp only [List.mem_append, List.mem_singleton, not_or]
            exact ⟨fun hmem => hbefore (List.mem_cons_of_mem _ hmem), Ne.symm (hraw "-v")⟩
          obtain rfl : args' = (before ++ [a]) ++ rest := hsplit.trans (List.append_cons ..)
          obtain ⟨behind, hbehind⟩ := prefix_of_sublist hfront hsub hargs
          have hwords' : call.name :: call.args = (word :: before) ++ a :: behind := by
            rw [← hbehind]
            simpa using hword
          exact .flag hwords' hraw hbefore

end SegregatedFit.Command
