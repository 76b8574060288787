import SegregatedFit.Proofs.Trace.Grammar
import Mathlib.Data.List.Induction

/-!
Where a text goes wrong. The lines are read in order, each as what its place asks for, and the first one that
is not acceptable there decides the error, whatever comes behind it. The number of the lines counts only when
all of them are acceptable.
-/

namespace SegregatedFit

-- The line that an error is about; zero stands for a line that is not there.
def TraceError.line? : TraceError → Option Nat
  | .missing line _ => some line
  | .invalidNumber line _ _ => some line
  | .unknownOp line _ => some line
  | .idOutOfRange line _ _ => some line
  | .opCount _ _ => none

namespace Text

-- The lines that are not blank, trimmed.
def contents (lines : List (List Char)) : List (List Char) := (lines.map trim).filter (!·.isEmpty)

-- The same with their numbers, where the first line has number `start`.
def numbered (start : Nat) (lines : List (List Char)) : List (Nat × List Char) :=
  (lines.zipIdx start).filterMap fun (line, number) =>
    let line := trim line
    if line.isEmpty then none else some (number, line)

variable {text line : List Char} {lines rest : List (List Char)} {xs ys : List (Nat × List Char)}
  {entry : Nat × List Char} {start : Nat}

theorem numberedLines_eq (hlines : Lines text lines) : numberedLines text = numbered 1 lines := by
  rw [numberedLines, splitOn_newline_eq_iff.mpr hlines, numbered]

theorem numbered_cons_of_blank (hblank : trim line = []) :
    numbered start (line :: rest) = numbered (start + 1) rest := by
  simp [numbered, hblank]

theorem numbered_cons_of_ne (hne : trim line ≠ []) :
    numbered start (line :: rest) = (start, trim line) :: numbered (start + 1) rest := by
  simp [numbered, hne]

theorem numbered_append (start : Nat) (lines rest : List (List Char)) :
    numbered start (lines ++ rest) = numbered start lines ++ numbered (start + lines.length) rest := by
  rw [numbered, List.zipIdx_append, List.filterMap_append, numbered, numbered]

theorem map_snd_numbered (start : Nat) (lines : List (List Char)) :
    (numbered start lines).map (·.2) = contents lines := by
  induction lines generalizing start with
  | nil => rfl
  | cons line rest ih =>
      by_cases hblank : trim line = []
      · rw [numbered_cons_of_blank hblank, ih]
        simp [contents, hblank]
      · rw [numbered_cons_of_ne hblank, List.map_cons, ih]
        simp [contents, hblank]

-- A line that is left is found again among all lines by its number.
theorem numbered_split (h : numbered start lines = xs ++ entry :: ys) :
    ∃ before line after, lines = before ++ line :: after ∧ numbered start before = xs ∧
      entry = (start + before.length, trim line) ∧ trim line ≠ [] := by
  induction lines generalizing start xs with
  | nil => simp [numbered] at h
  | cons line rest ih =>
      by_cases hblank : trim line = []
      · rw [numbered_cons_of_blank hblank] at h
        obtain ⟨before, line', after, rfl, hbefore, rfl, hne⟩ := ih h
        refine ⟨line :: before, line', after, rfl, by rw [numbered_cons_of_blank hblank, hbefore], ?_, hne⟩
        rw [List.length_cons, Nat.add_assoc, Nat.add_comm 1]
      · rw [numbered_cons_of_ne hblank] at h
        cases xs with
        | nil =>
            obtain ⟨rfl, -⟩ := List.cons.inj h
            exact ⟨[], line, rest, rfl, rfl, rfl, hblank⟩
        | cons first xs =>
            rw [List.cons_append] at h
            obtain ⟨rfl, hrest⟩ := List.cons.inj h
            obtain ⟨before, line', after, rfl, hbefore, rfl, hne⟩ := ih hrest
            refine ⟨line :: before, line', after, rfl, by rw [numbered_cons_of_ne hblank, hbefore], ?_, hne⟩
            rw [List.length_cons, Nat.add_assoc, Nat.add_comm 1]

theorem le_of_mem_numbered {x : Nat × List Char} (hx : x ∈ numbered start lines) : start ≤ x.1 := by
  obtain ⟨xs, ys, hsplit⟩ := List.append_of_mem hx
  obtain ⟨before, line, after, -, -, rfl, -⟩ := numbered_split hsplit
  exact Nat.le_add_right start _

end Text

namespace Trace

variable {text text' : List Char} {texts before after : List (List Char)} {xs ys : List (Nat × List Char)}
  {entry a b c d : Nat × List Char} {n n' line numIds heap count weight : Nat} {e : TraceError}
  {what : TraceField}

-- What the first lines stand for.
def headerFields : List TraceField := [.heapSize, .idCount, .opCount, .weight]

-- What a line may be behind the lines `earlier`: first there are four numbers, and then operations on ids
-- below the second of these.
inductive Acceptable : (earlier : List (List Char)) → (text : List Char) → Prop
  | header {earlier : List (List Char)} {text : List Char} {n : Nat} (hearly : earlier.length < 4)
      (hnumber : Literal text n) : Acceptable earlier text
  | entry {heapText idsText countText weightText text : List Char} {entries : List (List Char)}
      {numIds : Nat} {op : Op} (hids : Literal idsText numIds) (hop : Entry numIds (Text.fields text) op) :
      Acceptable (heapText :: idsText :: countText :: weightText :: entries) text

-- Each line is acceptable in its place.
def Orderly (texts : List (List Char)) : Prop :=
  ∀ before text after, texts = before ++ text :: after → Acceptable before text

theorem Orderly.left (h : Orderly (before ++ after)) : Orderly before := by
  rintro xs x ys rfl
  exact h xs x (ys ++ after) (by simp)

-- If the lines are not all acceptable, there is a first one that is not.
theorem orderly_or_exists (texts : List (List Char)) : Orderly texts ∨
    ∃ before text after, texts = before ++ text :: after ∧ Orderly before ∧ ¬Acceptable before text := by
  induction texts using List.reverseRecOn with
  | nil => exact .inl fun before text after h => by simp at h
  | append_singleton texts last ih =>
      rcases ih with horderly | ⟨before, text, after, rfl, horderly, hbad⟩
      · by_cases hlast : Acceptable texts last
        · refine .inl fun before text after h => ?_
          rcases List.eq_nil_or_concat' after with rfl | ⟨after, last', rfl⟩
          · obtain ⟨rfl, hsame⟩ := List.append_inj' h rfl
            exact (List.cons.inj hsame).1 ▸ hlast
          · rw [← List.cons_append, ← List.append_assoc] at h
            exact horderly before text after (List.append_inj' h rfl).1
        · exact .inr ⟨texts, last, [], rfl, horderly, hlast⟩
      · exact .inr ⟨before, text, after ++ [last], by simp, horderly, hbad⟩

theorem Literal.unique (h : Literal text n) (h' : Literal text n') : n = n' :=
  Except.ok.inj ((readNumber_eq_ok_iff.mpr h).symm.trans (readNumber_eq_ok_iff.mpr h'))

theorem line_of_number (h : Trace.number line text = .error e) : e.line? = some line := by
  rw [Trace.number] at h
  cases hread : readNumber text with
  | ok n => simp [hread] at h
  | error cause =>
      rw [hread] at h
      cases h
      rfl

theorem line_of_firstNumber {fs : List (List Char)} (h : firstNumber line what fs = .error e) :
    e.line? = some line := by
  cases fs with
  | nil =>
      cases h
      rfl
  | cons text rest => exact line_of_number h

-- Every error of an operation is about its line.
theorem line_of_readOp (h : readOp numIds entry = .error e) : e.line? = some entry.1 := by
  obtain ⟨line, text⟩ := entry
  rcases bind_eq_error_iff.mp h with h | ⟨id, -, h⟩
  · exact line_of_firstNumber h
  by_cases hrange : numIds ≤ id
  · rw [if_pos hrange] at h
    cases h
    rfl
  rw [if_neg hrange] at h
  split at h
  · rcases bind_eq_error_iff.mp h with h | ⟨size, -, h⟩
    · exact line_of_firstNumber h
    · cases h
  · rcases bind_eq_error_iff.mp h with h | ⟨size, -, h⟩
    · exact line_of_firstNumber h
    · cases h
  · cases h
  · cases h
    rfl

-- Reads the lines that are left once the blank ones are taken out.
def readEntries (entries : List (Nat × List Char)) : Except TraceError Trace := do
  let (suggestedHeap, lines) ← readHeader .heapSize entries
  let (numIds, lines) ← readHeader .idCount lines
  let (numOps, lines) ← readHeader .opCount lines
  let (weight, lines) ← readHeader .weight lines
  let ops ← lines.mapM (readOp numIds)
  if ops.length ≠ numOps then throw (.opCount numOps ops.length)
  return ⟨suggestedHeap, numIds, weight, ops⟩

theorem parseChars_eq {lines : List (List Char)} (hlines : Text.Lines text lines) :
    parseChars text = readEntries (Text.numbered 1 lines) := by
  rw [← Text.numberedLines_eq hlines]
  rfl

theorem readHeader_of_literal (h : Literal entry.2 n) (what : TraceField) (ys : List (Nat × List Char)) :
    readHeader what (entry :: ys) = .ok (n, ys) :=
  readHeader_eq_ok_iff.mpr ⟨_, _, rfl, h⟩

-- Behind fewer than four numbers another one is read.
theorem readEntries_of_early (hliteral : ∀ x ∈ xs, ∃ n, Literal x.2 n)
    (hwhat : headerFields[xs.length]? = some what) (herror : readHeader what ys = .error e) :
    readEntries (xs ++ ys) = .error e := by
  rcases xs with _ | ⟨a, _ | ⟨b, _ | ⟨c, _ | ⟨d, xs⟩⟩⟩⟩
  · obtain rfl := Option.some.inj hwhat
    simp [readEntries, herror]
  · obtain rfl := Option.some.inj hwhat
    obtain ⟨_, ha⟩ := hliteral a (by simp)
    simp [readEntries, readHeader_of_literal ha, herror]
  · obtain rfl := Option.some.inj hwhat
    obtain ⟨_, ha⟩ := hliteral a (by simp)
    obtain ⟨_, hb⟩ := hliteral b (by simp)
    simp [readEntries, readHeader_of_literal ha, readHeader_of_literal hb, herror]
  · obtain rfl := Option.some.inj hwhat
    obtain ⟨_, ha⟩ := hliteral a (by simp)
    obtain ⟨_, hb⟩ := hliteral b (by simp)
    obtain ⟨_, hc⟩ := hliteral c (by simp)
    simp [readEntries, readHeader_of_literal ha, readHeader_of_literal hb, readHeader_of_literal hc, herror]
  · simp [headerFields] at hwhat

-- Behind four numbers the operations are read.
theorem readEntries_of_late (ha : Literal a.2 heap) (hb : Literal b.2 numIds) (hc : Literal c.2 count)
    (hd : Literal d.2 weight) (ys : List (Nat × List Char)) : readEntries (a :: b :: c :: d :: ys) = do
      let ops ← ys.mapM (readOp numIds)
      if ops.length ≠ count then throw (.opCount count ops.length)
      return ⟨heap, numIds, weight, ops⟩ := by
  simp only [readEntries, readHeader_of_literal ha, readHeader_of_literal hb, readHeader_of_literal hc,
    readHeader_of_literal hd, ok_bind]

theorem Orderly.literal (h : Orderly texts) (hshort : texts.length ≤ 4) (hmem : text ∈ texts) :
    ∃ n, Literal text n := by
  obtain ⟨before, after, rfl⟩ := List.append_of_mem hmem
  cases h before text after rfl with
  | header _ hnumber => exact ⟨_, hnumber⟩
  | entry =>
      simp only [List.length_append, List.length_cons] at hshort
      omega

theorem exists_ops (hops : ∀ y ∈ ys, ∃ op, Entry numIds (Text.fields y.2) op) :
    ∃ ops, ys.mapM (readOp numIds) = .ok ops ∧ ops.length = ys.length := by
  induction ys with
  | nil => exact ⟨[], rfl, rfl⟩
  | cons y ys ih =>
      obtain ⟨⟨op, hop⟩, hrest⟩ := List.forall_mem_cons.mp hops
      obtain ⟨ops, hread, hlength⟩ := ih hrest
      refine ⟨op :: ops, ?_, congrArg (· + 1) hlength⟩
      rw [List.mapM_cons, readOp_of_entry hop, ok_bind, hread]
      rfl

-- Four numbers stand in front of the operations, and each of these has an id that is declared there.
theorem Orderly.late (h : Orderly ((a :: b :: c :: d :: ys).map (·.2))) :
    ∃ heap numIds count weight ops, Literal a.2 heap ∧ Literal b.2 numIds ∧ Literal c.2 count ∧
      Literal d.2 weight ∧ ys.mapM (readOp numIds) = .ok ops ∧ ops.length = ys.length := by
  have hwhole : Orderly ([a.2, b.2, c.2, d.2] ++ ys.map (·.2)) := h
  have hheader := hwhole.left
  have hnumber : ∀ text ∈ [a.2, b.2, c.2, d.2], ∃ n, Literal text n := fun text =>
    hheader.literal (Nat.le_refl 4)
  obtain ⟨heap, ha⟩ := hnumber a.2 (by simp)
  obtain ⟨numIds, hb⟩ := hnumber b.2 (by simp)
  obtain ⟨count, hc⟩ := hnumber c.2 (by simp)
  obtain ⟨weight, hd⟩ := hnumber d.2 (by simp)
  have hops : ∀ y ∈ ys, ∃ op, Entry numIds (Text.fields y.2) op := by
    intro y hy
    obtain ⟨before, after, rfl⟩ := List.append_of_mem hy
    cases h (a.2 :: b.2 :: c.2 :: d.2 :: before.map (·.2)) y.2 (after.map (·.2)) (by simp) with
    | header hearly _ =>
        simp only [List.length_cons] at hearly
        omega
    | entry hids hop => exact ⟨_, hids.unique hb ▸ hop⟩
  obtain ⟨ops, hread, hlength⟩ := exists_ops hops
  exact ⟨heap, numIds, count, weight, ops, ha, hb, hc, hd, hread, hlength⟩

theorem exists_header (h : ¬xs.length < 4) : ∃ a b c d ys, xs = a :: b :: c :: d :: ys := by
  rcases xs with _ | ⟨a, _ | ⟨b, _ | ⟨c, _ | ⟨d, ys⟩⟩⟩⟩
  case cons.cons.cons.cons => exact ⟨a, b, c, d, ys, rfl⟩
  all_goals exact absurd (by simp) h

-- The first line that is not acceptable decides the error.
theorem readEntries_of_offence (horderly : Orderly (xs.map (·.2)))
    (hbad : ¬Acceptable (xs.map (·.2)) entry.2) :
    ∃ e, e.line? = some entry.1 ∧ ∀ ys, readEntries (xs ++ entry :: ys) = .error e := by
  by_cases hearly : xs.length < 4
  · have hliteral : ∀ x ∈ xs, ∃ n, Literal x.2 n := fun x hx =>
      horderly.literal (by simpa using Nat.le_of_lt hearly) (List.mem_map_of_mem hx)
    cases hread : Trace.number entry.1 entry.2 with
    | ok n => exact absurd (.header (by simpa using hearly) (number_eq_ok_iff.mp hread)) hbad
    | error e =>
        refine ⟨e, line_of_number hread, fun ys => ?_⟩
        refine readEntries_of_early hliteral (List.getElem?_eq_getElem (l := headerFields) hearly) ?_
        rw [readHeader, hread]
        rfl
  · obtain ⟨a, b, c, d, xs, rfl⟩ := exists_header hearly
    obtain ⟨heap, numIds, count, weight, ops, ha, hb, hc, hd, hops, -⟩ := horderly.late
    cases hread : readOp numIds entry with
    | ok op => exact absurd (.entry hb (readOp_eq_ok_iff.mp hread)) hbad
    | error e =>
        refine ⟨e, line_of_readOp hread, fun ys => ?_⟩
        have hmapM : (xs ++ entry :: ys).mapM (readOp numIds) = .error e := by
          rw [List.mapM_append, hops, ok_bind, List.mapM_cons, hread]
          rfl
        rw [List.cons_append, List.cons_append, List.cons_append, List.cons_append,
          readEntries_of_late ha hb hc hd, hmapM]
        rfl

-- What becomes of a text with too few lines.
theorem readEntries_of_short (hliteral : ∀ x ∈ xs, ∃ n, Literal x.2 n)
    (hwhat : headerFields[xs.length]? = some what) : readEntries xs = .error (.missing 0 what) := by
  have hread := readEntries_of_early hliteral hwhat (rfl : readHeader what [] = _)
  rwa [List.append_nil] at hread

-- And of one whose lines are all acceptable and not too few.
theorem readEntries_of_orderly (horderly : Orderly ((a :: b :: c :: d :: ys).map (·.2))) :
    ∃ count t, Literal c.2 count ∧ readEntries (a :: b :: c :: d :: ys) =
      if ys.length ≠ count then .error (.opCount count ys.length) else .ok t := by
  obtain ⟨heap, numIds, count, weight, ops, ha, hb, hc, hd, hops, hlength⟩ := horderly.late
  refine ⟨count, ⟨heap, numIds, weight, ops⟩, hc, ?_⟩
  rw [readEntries_of_late ha hb hc hd, hops, ok_bind, hlength]
  rfl

-- The outcome of reading, as an error sees it.
inductive Reading (xs : List (Nat × List Char)) : Except TraceError Trace → Prop
  | offence {before after : List (Nat × List Char)} {entry : Nat × List Char} {e : TraceError}
      (hsplit : xs = before ++ entry :: after) (horderly : Orderly (before.map (·.2)))
      (hbad : ¬Acceptable (before.map (·.2)) entry.2) (hline : e.line? = some entry.1)
      (hsame : ∀ after', readEntries (before ++ entry :: after') = .error e) : Reading xs (.error e)
  | short {what : TraceField} (hliteral : ∀ x ∈ xs, ∃ n, Literal x.2 n)
      (hwhat : headerFields[xs.length]? = some what) : Reading xs (.error (.missing 0 what))
  | miscounted {a b c d : Nat × List Char} {ys : List (Nat × List Char)} {count : Nat}
      (hsplit : xs = a :: b :: c :: d :: ys) (horderly : Orderly (xs.map (·.2)))
      (hcount : Literal c.2 count) (hne : ys.length ≠ count) :
      Reading xs (.error (.opCount count ys.length))
  | accepted {t : Trace} : Reading xs (.ok t)

theorem reading_readEntries (xs : List (Nat × List Char)) : Reading xs (readEntries xs) := by
  rcases orderly_or_exists (xs.map (·.2)) with horderly | ⟨before, text, after, hsplit, horderly, hbad⟩
  · by_cases hearly : xs.length < 4
    · have hliteral : ∀ x ∈ xs, ∃ n, Literal x.2 n := fun x hx =>
        horderly.literal (by simpa using Nat.le_of_lt hearly) (List.mem_map_of_mem hx)
      have hwhat := List.getElem?_eq_getElem (l := headerFields) hearly
      rw [readEntries_of_short hliteral hwhat]
      exact .short hliteral hwhat
    · obtain ⟨a, b, c, d, ys, rfl⟩ := exists_header hearly
      obtain ⟨count, t, hcount, hread⟩ := readEntries_of_orderly horderly
      rw [hread]
      split
      · rename_i hne
        exact .miscounted rfl horderly hcount hne
      · exact .accepted
  · obtain ⟨before, behind, rfl, rfl, hbehind⟩ := List.map_eq_append_iff.mp hsplit
    obtain ⟨entry, after, rfl, rfl, -⟩ := List.map_eq_cons_iff.mp hbehind
    obtain ⟨e, hline, hsame⟩ := readEntries_of_offence horderly hbad
    rw [hsame]
    exact .offence rfl horderly hbad hline hsame

-- An error about a line is about the first one that is not acceptable, whatever follows.
theorem readEntries_located (hread : readEntries xs = .error e) (hline : e.line? = some line)
    (hpositive : 1 ≤ line) : ∃ before entry after, xs = before ++ entry :: after ∧ entry.1 = line ∧
      Orderly (before.map (·.2)) ∧ ¬Acceptable (before.map (·.2)) entry.2 ∧
      ∀ after', readEntries (before ++ entry :: after') = .error e := by
  have hreading := reading_readEntries xs
  rw [hread] at hreading
  cases hreading with
  | offence hsplit horderly hbad hself hsame =>
      exact ⟨_, _, _, hsplit, Option.some.inj (hself.symm.trans hline), horderly, hbad, hsame⟩
  | short =>
      obtain rfl := Option.some.inj hline
      exact absurd hpositive (by decide)
  | miscounted => cases hline

theorem readEntries_eq_missing_iff (hpositive : ∀ x ∈ xs, 1 ≤ x.1) :
    readEntries xs = .error (.missing 0 what) ↔
      (∀ x ∈ xs, ∃ n, Literal x.2 n) ∧ headerFields[xs.length]? = some what := by
  refine ⟨fun hread => ?_, fun ⟨hliteral, hwhat⟩ => readEntries_of_short hliteral hwhat⟩
  have hreading := reading_readEntries xs
  rw [hread] at hreading
  cases hreading with
  | short hliteral hwhat => exact ⟨hliteral, hwhat⟩
  | @offence before after entry _ hsplit _ _ hself _ =>
      have hfirst := hpositive entry (by simp [hsplit])
      rw [← Option.some.inj hself] at hfirst
      exact absurd hfirst (by decide)

theorem readEntries_eq_opCount_iff {expected found : Nat} :
    readEntries xs = .error (.opCount expected found) ↔ Orderly (xs.map (·.2)) ∧
      ∃ a b c d ys, xs = a :: b :: c :: d :: ys ∧ Literal c.2 expected ∧ ys.length = found ∧
        found ≠ expected := by
  constructor
  · intro hread
    have hreading := reading_readEntries xs
    rw [hread] at hreading
    cases hreading with
    | miscounted hsplit horderly hcount hne => exact ⟨horderly, _, _, _, _, _, hsplit, hcount, rfl, hne⟩
    | offence _ _ _ hself _ => cases hself
  · rintro ⟨horderly, a, b, c, d, ys, rfl, hcount, rfl, hne⟩
    obtain ⟨count, t, hcount', hread⟩ := readEntries_of_orderly horderly
    obtain rfl := hcount.unique hcount'
    rw [hread, if_pos hne]

-- An error that is about a line of the text is about the first one that is not acceptable in its place, and
-- would be the same with any other lines behind it. The others are about what is missing at the end of the
-- first numbers, or about how many operations there are.
theorem parse_error_located (text : String) : ∃ lines, Text.Lines text.toList lines ∧
    (∀ e number, parse text = .error e → e.line? = some number → 1 ≤ number →
      ∃ before line after, lines = before ++ line :: after ∧ before.length + 1 = number ∧
        ¬Text.AllBlank line ∧ Orderly (Text.contents before) ∧
        ¬Acceptable (Text.contents before) (Text.trim line) ∧
        ∀ (text' : String) after', Text.Lines text'.toList (before ++ line :: after') →
          parse text' = .error e) ∧
    (∀ what, parse text = .error (.missing 0 what) ↔
      (∀ line ∈ Text.contents lines, ∃ n, Literal line n) ∧
        headerFields[(Text.contents lines).length]? = some what) ∧
    ∀ expected found, parse text = .error (.opCount expected found) ↔ Orderly (Text.contents lines) ∧
      ∃ heapText idsText countText weightText entries,
        Text.contents lines = heapText :: idsText :: countText :: weightText :: entries ∧
        Literal countText expected ∧ entries.length = found ∧ found ≠ expected := by
  have hlines : Text.Lines text.toList _ := Text.splitOn_newline_eq_iff.mp rfl
  generalize Text.splitOn (· == '\n') text.toList = lines at hlines
  refine ⟨lines, hlines, ?_⟩
  simp only [parse, parseChars_eq hlines, ← Text.map_snd_numbered 1 lines, List.length_map]
  refine ⟨fun e number hread hline hnumber => ?_, fun what => ?_, fun expected found => ?_⟩
  · obtain ⟨xs, entry, ys, hsplit, rfl, horderly, hbad, hsame⟩ := readEntries_located hread hline hnumber
    obtain ⟨before, line, after, rfl, rfl, rfl, hne⟩ := Text.numbered_split hsplit
    rw [Text.map_snd_numbered] at horderly hbad
    refine ⟨before, line, after, rfl, Nat.add_comm _ _, fun hblank => hne (Text.trim_eq_nil hblank),
      horderly, hbad, fun text' after' hlines' => ?_⟩
    rw [parseChars_eq hlines', Text.numbered_append, Text.numbered_cons_of_ne hne]
    exact hsame _
  · rw [readEntries_eq_missing_iff fun x => Text.le_of_mem_numbered, List.forall_mem_map]
  · rw [readEntries_eq_opCount_iff]
    generalize Text.numbered 1 lines = xs
    refine and_congr_right fun _ => ⟨?_, ?_⟩
    · rintro ⟨a, b, c, d, ys, rfl, hcount, rfl, hne⟩
      exact ⟨_, _, _, _, _, rfl, hcount, List.length_map _, hne⟩
    · rintro ⟨heapText, idsText, countText, weightText, entries, hsplit, hcount, rfl, hne⟩
      obtain ⟨a, xs, rfl, rfl, ha⟩ := List.map_eq_cons_iff.mp hsplit
      obtain ⟨b, xs, rfl, rfl, hb⟩ := List.map_eq_cons_iff.mp ha
      obtain ⟨c, xs, rfl, rfl, hc⟩ := List.map_eq_cons_iff.mp hb
      obtain ⟨d, ys, rfl, rfl, rfl⟩ := List.map_eq_cons_iff.mp hc
      exact ⟨a, b, c, d, ys, rfl, hcount, (List.length_map _).symm, hne⟩

theorem parse_error_located_range : ∃ before line after,
    Text.Lines "64\n2\n\n2\n1\na 7 8\nf 0".toList (before ++ line :: after) ∧ before.length + 1 = 6 ∧
      Orderly (Text.contents before) ∧ ¬Acceptable (Text.contents before) (Text.trim line) := by
  have hread : parse "64\n2\n\n2\n1\na 7 8\nf 0" = .error (.idOutOfRange 6 7 2) := by decide +kernel
  obtain ⟨lines, hlines, hlocated, -⟩ := parse_error_located "64\n2\n\n2\n1\na 7 8\nf 0"
  obtain ⟨before, line, after, rfl, hnumber, -, horderly, hbad, -⟩ :=
    hlocated _ 6 hread rfl (by decide)
  exact ⟨before, line, after, hlines, hnumber, horderly, hbad⟩

end Trace

end SegregatedFit
