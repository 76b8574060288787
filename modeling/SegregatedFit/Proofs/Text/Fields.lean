import SegregatedFit.Text.Blank
import Mathlib.Data.List.Forall2
import Mathlib.Data.List.TakeWhile

/-!
What lines and fields are. The fields of a line are the maximal runs of characters that are not white
space, however much white space stands around them; trimming a line leaves its fields as they are.
-/

namespace SegregatedFit.Text

-- The text consists of the lines, with a newline between one and the next.
structure Lines (text : List Char) (lines : List (List Char)) : Prop where
  nonempty : lines ≠ []
  inside : ∀ line ∈ lines, '\n' ∉ line
  joined : ['\n'].intercalate lines = text

def AllBlank (gap : List Char) : Prop := ∀ c ∈ gap, isBlank c = true

instance (gap : List Char) : Decidable (AllBlank gap) :=
  List.decidableBAll (fun c => isBlank c = true) gap

-- At least one character, and no white space.
structure IsField (field : List Char) : Prop where
  nonempty : field ≠ []
  solid : ∀ c ∈ field, isBlank c = false

-- The line has these fields, with white space around and between them.
inductive Fields : List Char → List (List Char) → Prop
  | none {gap : List Char} (hgap : AllBlank gap) : Fields gap []
  | more {gap field rest : List Char} {fs : List (List Char)} (hgap : AllBlank gap)
      (hfield : IsField field) (hend : ∀ c ∈ rest.head?, isBlank c = true) (hrest : Fields rest fs) :
      Fields (gap ++ field ++ rest) (field :: fs)

variable {text line gap gap' field rest : List Char} {lines fs : List (List Char)} {c : Char}

theorem splitOn_eq_splitOnP (p : Char → Bool) (text : List Char) : splitOn p text = text.splitOnP p := by
  induction text with
  | nil => rfl
  | cons c rest ih =>
      have hstep : splitOn p (c :: rest) = splitOn.step p c (splitOn p rest) := rfl
      rw [hstep, ih, List.splitOnP_cons_eq_if_modifyHead]
      cases hparts : rest.splitOnP p with
      | nil => exact absurd hparts (List.splitOnP_ne_nil p rest)
      | cons part parts => rfl

private theorem notMem_of_mem_splitOn (text : List Char) :
    ∀ line ∈ text.splitOn '\n', '\n' ∉ line := by
  induction text with
  | nil => simp
  | cons c rest ih =>
      rw [List.splitOn_cons_eq_if_modifyHead]
      cases hparts : rest.splitOn '\n' with
      | nil => exact absurd hparts (List.splitOn_ne_nil _ rest)
      | cons part parts =>
          rw [hparts] at ih
          by_cases hc : c = '\n'
          · simpa [hc] using ih
          · simpa [hc, Ne.symm hc] using ih

-- There is one way to divide a text into lines.
theorem splitOn_newline_eq_iff : splitOn (· == '\n') text = lines ↔ Lines text lines := by
  rw [splitOn_eq_splitOnP, ← List.splitOn_eq_splitOnP]
  constructor
  · rintro rfl
    exact ⟨List.splitOn_ne_nil _ _, notMem_of_mem_splitOn text, List.intercalate_splitOn _⟩
  · rintro ⟨hne, hinside, rfl⟩
    exact List.splitOn_intercalate _ hinside hne

-- White space divides the fields before it from those behind it.
theorem fields_append_cons (hc : isBlank c = true) (before behind : List Char) :
    fields (before ++ c :: behind) = fields before ++ fields behind := by
  simp only [fields, splitOn_eq_splitOnP]
  rw [List.splitOnP_append_cons before behind hc, List.filter_append]

theorem fields_eq_singleton (hfield : IsField field) : fields field = [field] := by
  have hne : field.isEmpty = false := by simpa using hfield.nonempty
  rw [fields, splitOn_eq_splitOnP, List.splitOnP_eq_singleton hfield.solid]
  simp [hne]

theorem fields_gap_append (hgap : AllBlank gap) (rest : List Char) :
    fields (gap ++ rest) = fields rest := by
  induction gap with
  | nil => rfl
  | cons c gap ih =>
      have hfirst := fields_append_cons (hgap c List.mem_cons_self) [] (gap ++ rest)
      exact hfirst.trans (ih fun x hx => hgap x (List.mem_cons_of_mem _ hx))

-- What begins with white space, or is empty, does not go on with the last field.
theorem fields_append (hend : ∀ c ∈ rest.head?, isBlank c = true) (before : List Char) :
    fields (before ++ rest) = fields before ++ fields rest := by
  cases rest with
  | nil => simp [fields, splitOn]
  | cons c rest =>
      have hc := hend c rfl
      have hrest := fields_append_cons hc [] rest
      rw [fields_append_cons hc, ← List.nil_append (c :: rest), hrest]
      rfl

theorem Fields.fields_eq (h : Fields line fs) : fields line = fs := by
  induction h with
  | @none gap hgap =>
      rw [← List.append_nil gap, fields_gap_append hgap]
      rfl
  | more hgap hfield hend hrest ih =>
      rw [List.append_assoc, fields_gap_append hgap, fields_append hend, fields_eq_singleton hfield, ih]
      rfl

theorem exists_fields (line : List Char) : ∃ fs, Fields line fs := by
  induction line with
  | nil => exact ⟨[], .none (by simp [AllBlank])⟩
  | cons c line ih =>
      obtain ⟨fs, hfs⟩ := ih
      cases hc : isBlank c with
      | true =>
          have hgap : ∀ {gap}, AllBlank gap → AllBlank (c :: gap) := fun h => by
            simpa [AllBlank, hc] using h
          cases hfs with
          | none hblank => exact ⟨[], .none (hgap hblank)⟩
          | more hblank hfield hend hrest => exact ⟨_, .more (hgap hblank) hfield hend hrest⟩
      | false =>
          have hempty : AllBlank [] := by simp [AllBlank]
          by_cases hend : ∀ d ∈ line.head?, isBlank d = true
          · have hfield : IsField [c] := ⟨by simp, by simpa using hc⟩
            exact ⟨[c] :: fs, .more hempty hfield hend hfs⟩
          · -- the character belongs to the first field of the line
            cases hfs with
            | none hgap => exact absurd (fun d hd => hgap d (List.mem_of_head? hd)) hend
            | @more gap field rest fs hgap hfield hrestEnd hrest =>
                cases gap with
                | cons d gap => exact absurd (by simpa using hgap d List.mem_cons_self) hend
                | nil =>
                    have hlonger : IsField (c :: field) := ⟨by simp, by simpa [hc] using hfield.solid⟩
                    exact ⟨(c :: field) :: fs, .more hempty hlonger hrestEnd hrest⟩

theorem fields_eq_iff : fields line = fs ↔ Fields line fs := by
  refine ⟨?_, Fields.fields_eq⟩
  rintro rfl
  obtain ⟨fs, hfs⟩ := exists_fields line
  rwa [hfs.fields_eq]

theorem forall₂_fields_iff {lineFields : List (List (List Char))} :
    List.Forall₂ Fields lines lineFields ↔ lines.map fields = lineFields := by
  rw [← List.forall₂_eq_eq_eq, List.forall₂_map_left_iff]
  simp only [fields_eq_iff]

-- Trimming takes away white space and nothing else.
theorem trim_split (line : List Char) :
    ∃ gap gap', AllBlank gap ∧ AllBlank gap' ∧ line = gap ++ trim line ++ gap' := by
  refine ⟨line.takeWhile isBlank, ((line.dropWhile isBlank).reverse.takeWhile isBlank).reverse, ?_, ?_, ?_⟩
  · exact fun c hc => List.mem_takeWhile_imp hc
  · exact fun c hc => List.mem_takeWhile_imp (List.mem_reverse.mp hc)
  · rw [trim, List.append_assoc, ← List.reverse_append, List.takeWhile_append_dropWhile,
      List.reverse_reverse, List.takeWhile_append_dropWhile]

theorem fields_trim (line : List Char) : fields (trim line) = fields line := by
  obtain ⟨gap, gap', hgap, hgap', hsplit⟩ := trim_split line
  have hblank : fields gap' = [] := (Fields.none hgap').fields_eq
  have hend : ∀ c ∈ gap'.head?, isBlank c = true := fun c hc => hgap' c (List.mem_of_head? hc)
  have hwhole : fields (gap ++ trim line ++ gap') = fields (trim line) := by
    rw [List.append_assoc, fields_gap_append hgap, fields_append hend, hblank, List.append_nil]
  rw [← hwhole, ← hsplit]

theorem trim_eq_nil (hgap : AllBlank gap) : trim gap = [] := by
  have hdrop : gap.dropWhile isBlank = [] := List.dropWhile_eq_nil_iff.mpr hgap
  simp [trim, hdrop]

private theorem dropWhile_gap (hgap : AllBlank gap) (hfield : IsField field) (rest : List Char) :
    (gap ++ field ++ rest).dropWhile isBlank = field ++ rest := by
  rw [List.append_assoc, List.dropWhile_append_of_pos hgap]
  cases field with
  | nil => exact absurd rfl hfield.nonempty
  | cons c field =>
      have hc := hfield.solid c List.mem_cons_self
      simp [hc]

theorem trim_eq_field (hgap : AllBlank gap) (hgap' : AllBlank gap') (hfield : IsField field) :
    trim (gap ++ field ++ gap') = field := by
  have hback : AllBlank gap'.reverse := fun c hc => hgap' c (List.mem_reverse.mp hc)
  have hmirror : IsField field.reverse :=
    ⟨by simpa using hfield.nonempty, fun c hc => hfield.solid c (List.mem_reverse.mp hc)⟩
  have hdrop := dropWhile_gap hback hmirror []
  rw [List.append_nil, List.append_nil] at hdrop
  rw [trim, dropWhile_gap hgap hfield, List.reverse_append, hdrop, List.reverse_reverse]

theorem trim_eq_nil_iff : trim line = [] ↔ fields line = [] := by
  constructor
  · intro h
    rw [← fields_trim, h]
    rfl
  · intro h
    cases fields_eq_iff.mp h with
    | none hgap => exact trim_eq_nil hgap

-- A line with a single field is that field once it is trimmed.
theorem fields_eq_singleton_iff : fields line = [field] ↔ trim line = field ∧ IsField field := by
  constructor
  · intro h
    cases fields_eq_iff.mp h with
    | more hgap hfield hend hrest =>
        cases hrest with
        | none hgap' => exact ⟨trim_eq_field hgap hgap' hfield, hfield⟩
  · rintro ⟨rfl, hfield⟩
    rw [← fields_trim, fields_eq_singleton hfield]

theorem newline_notMem_field (hfield : IsField field) : '\n' ∉ field := fun h =>
  absurd (hfield.solid '\n' h) (by decide)

-- Fields with a blank between one and the next can be told apart.
theorem fields_intercalate (hfields : ∀ field ∈ fs, IsField field) :
    fields ([' '].intercalate fs) = fs := by
  induction fs with
  | nil => rfl
  | cons field fs ih =>
      obtain ⟨hfield, hrest⟩ := List.forall_mem_cons.mp hfields
      have hsingle := fields_eq_singleton hfield
      cases fs with
      | nil => rwa [List.intercalate_singleton]
      | cons next fs =>
          have hblank : isBlank ' ' = true := by decide
          have hsplit := fields_append_cons hblank field ([' '].intercalate (next :: fs))
          rw [List.intercalate_cons_cons, List.append_assoc, List.singleton_append, hsplit, hsingle, ih hrest]
          rfl

theorem newline_notMem_intercalate (hfields : ∀ field ∈ fs, IsField field) :
    '\n' ∉ [' '].intercalate fs := by
  induction fs with
  | nil => simp
  | cons field fs ih =>
      obtain ⟨hfield, hrest⟩ := List.forall_mem_cons.mp hfields
      have hfirst := newline_notMem_field hfield
      cases fs with
      | nil => rwa [List.intercalate_singleton]
      | cons next fs =>
          rw [List.intercalate_cons_cons]
          simp [hfirst, ih hrest]

-- The lines that are left are those with fields.
theorem fields_numberedLines (text : List Char) :
    (numberedLines text).map (fields ·.2) =
      ((splitOn (· == '\n') text).map fields).filter (!·.isEmpty) := by
  unfold numberedLines
  generalize splitOn (· == '\n') text = lines
  generalize 1 = start
  induction lines generalizing start with
  | nil => rfl
  | cons line lines ih =>
      have htrim := fields_trim line
      cases hfields : fields line with
      | nil =>
          have hempty := trim_eq_nil_iff.mpr hfields
          simpa [hempty, hfields] using ih (start + 1)
      | cons field fs =>
          have hne : trim line ≠ [] := fun h => by
            simp [trim_eq_nil_iff.mp h] at hfields
          simpa [hne, hfields, htrim] using ih (start + 1)

-- A line with a single field holds nothing else.
theorem eq_of_mem_numberedLines {entry : Nat × List Char} {field : List Char}
    (hmem : entry ∈ numberedLines text) (hfields : fields entry.2 = [field]) :
    entry.2 = field := by
  obtain ⟨⟨line, start⟩, -, hentry⟩ := List.mem_filterMap.mp hmem
  obtain rfl : (start, trim line) = entry := by simpa using (Option.ite_none_left_eq_some.mp hentry).2
  rw [fields_trim] at hfields
  exact (fields_eq_singleton_iff.mp hfields).1

end SegregatedFit.Text
