import SegregatedFit.Proofs.Trace.Grammar

/-!
Traces as text. A trace is written with its four header numbers and its operations one to a line; the
layout, which is the white space around the lines and the blank lines between them, is free. Reading such
a text gives the trace back.
-/

namespace SegregatedFit.Trace

-- White space that stays on its line. A carriage return is such white space.
structure Gap where
  chars : List Char
  blank : Text.AllBlank chars
  inline : '\n' ∉ chars

-- The lines with contents are counted from zero. Each has blank lines above it and white space in front of
-- and behind what it holds; more blank lines may follow the last.
structure Layout where
  above : Nat → List Gap
  indent : Nat → Gap
  trail : Nat → Gap
  below : List Gap

-- What can stand on a line that is not blank.
structure IsContent (fs : List (List Char)) : Prop where
  nonempty : fs ≠ []
  fields : ∀ field ∈ fs, Text.IsField field

theorem Gap.fields_eq (gap : Gap) : Text.fields gap.chars = [] := (Text.Fields.none gap.blank).fields_eq

namespace Layout

def line (layout : Layout) (i : Nat) (fs : List (List Char)) : List Char :=
  (layout.indent i).chars ++ [' '].intercalate fs ++ (layout.trail i).chars

-- The lines from number `i` on.
def lines (layout : Layout) (i : Nat) : List (List (List Char)) → List (List Char)
  | [] => layout.below.map Gap.chars
  | fs :: rest => (layout.above i).map Gap.chars ++ layout.line i fs :: layout.lines (i + 1) rest

variable (layout : Layout) {i : Nat} {fs : List (List Char)} {contents : List (List (List Char))}

theorem fields_line (hfs : IsContent fs) : Text.fields (layout.line i fs) = fs := by
  have hend : ∀ c ∈ (layout.trail i).chars.head?, Text.isBlank c = true := fun c hc =>
    (layout.trail i).blank c (List.mem_of_head? hc)
  rw [line, List.append_assoc, Text.fields_gap_append (layout.indent i).blank, Text.fields_append hend,
    Text.fields_intercalate hfs.fields, Gap.fields_eq, List.append_nil]

theorem newline_notMem_line (hfs : IsContent fs) : '\n' ∉ layout.line i fs := by
  have hinner := Text.newline_notMem_intercalate hfs.fields
  simp [line, (layout.indent i).inline, (layout.trail i).inline, hinner]

private theorem filter_fields_gaps (gaps : List Gap) :
    ((gaps.map Gap.chars).map Text.fields).filter (!·.isEmpty) = [] := by
  simp [Gap.fields_eq]

-- The layout adds no contents.
theorem filter_fields_lines (hcontents : ∀ fs ∈ contents, IsContent fs) :
    ((layout.lines i contents).map Text.fields).filter (!·.isEmpty) = contents := by
  induction contents generalizing i with
  | nil => exact filter_fields_gaps layout.below
  | cons fs rest ih =>
      obtain ⟨hfs, hrest⟩ := List.forall_mem_cons.mp hcontents
      have hfilled : fs.isEmpty = false := by simpa using hfs.nonempty
      rw [lines, List.map_append, List.filter_append, filter_fields_gaps, List.nil_append, List.map_cons,
        layout.fields_line hfs, List.filter_cons, hfilled, ih hrest]
      rfl

theorem newline_notMem_lines (hcontents : ∀ fs ∈ contents, IsContent fs) :
    ∀ line ∈ layout.lines i contents, '\n' ∉ line := by
  induction contents generalizing i with
  | nil => simpa [lines] using fun gap _ => gap.inline
  | cons fs rest ih =>
      obtain ⟨hfs, hrest⟩ := List.forall_mem_cons.mp hcontents
      intro line hline
      simp only [lines, List.mem_append, List.mem_map, List.mem_cons] at hline
      rcases hline with ⟨gap, -, rfl⟩ | rfl | hline
      · exact gap.inline
      · exact layout.newline_notMem_line hfs
      · exact ih hrest line hline

end Layout

def decimal (n : Nat) : List Char := Nat.toDigits 10 n

def opFields : Op → List (List Char)
  | .alloc id size => [['a'], decimal id, decimal size]
  | .realloc id size => [['r'], decimal id, decimal size]
  | .free id => [['f'], decimal id]

-- The fields of the lines, the header first.
def contents (t : Trace) : List (List (List Char)) :=
  [decimal t.suggestedHeap] :: [decimal t.numIds] :: [decimal t.ops.length] :: [decimal t.weight] ::
    t.ops.map opFields

def render (layout : Layout) (t : Trace) : String :=
  String.ofList (['\n'].intercalate (layout.lines 0 t.contents))

-- The id is among the declared ones, and the size is a number of 64 bits.
def OpInRange (numIds : Nat) : Op → Prop
  | .alloc id size | .realloc id size => id < numIds ∧ size < numberBound
  | .free id => id < numIds

structure InRange (t : Trace) : Prop where
  heap : t.suggestedHeap < numberBound
  ids : t.numIds < numberBound
  count : t.ops.length < numberBound
  weight : t.weight < numberBound
  ops : ∀ op ∈ t.ops, OpInRange t.numIds op

theorem literal_decimal {n : Nat} (hn : n < numberBound) : Literal (decimal n) n :=
  .inl ⟨Nat.toDigits_ne_nil, fun _ hc => Nat.isDigit_of_mem_toDigits (by decide) (by decide) hc,
    Nat.ofDigitChars_toDigits (by decide) (by decide), hn⟩

theorem entry_opFields {numIds : Nat} {op : Op} (hids : numIds < numberBound) (hop : OpInRange numIds op) :
    Entry numIds (opFields op) op := by
  cases op with
  | alloc id size => exact .alloc (literal_decimal (hop.1.trans hids)) hop.1 (literal_decimal hop.2)
  | realloc id size => exact .realloc (literal_decimal (hop.1.trans hids)) hop.1 (literal_decimal hop.2)
  | free id => exact .free (literal_decimal (Nat.lt_trans hop hids)) hop

theorem isField_decimal {n : Nat} (hn : n < numberBound) : Text.IsField (decimal n) :=
  (literal_decimal hn).isField

theorem isContent_opFields {numIds : Nat} {op : Op} (hids : numIds < numberBound)
    (hop : OpInRange numIds op) : IsContent (opFields op) := by
  have hkind : ∀ kind, Text.isBlank kind = false → Text.IsField [kind] := fun kind hsolid =>
    ⟨List.cons_ne_nil _ _, by simpa using hsolid⟩
  cases op with
  | alloc id size =>
      have hletter := hkind 'a' rfl
      have hid := isField_decimal (hop.1.trans hids)
      have hsize := isField_decimal hop.2
      exact ⟨List.cons_ne_nil _ _, by simp [opFields, hletter, hid, hsize]⟩
  | realloc id size =>
      have hletter := hkind 'r' rfl
      have hid := isField_decimal (hop.1.trans hids)
      have hsize := isField_decimal hop.2
      exact ⟨List.cons_ne_nil _ _, by simp [opFields, hletter, hid, hsize]⟩
  | free id =>
      have hletter := hkind 'f' rfl
      have hid := isField_decimal (Nat.lt_trans hop hids)
      exact ⟨List.cons_ne_nil _ _, by simp [opFields, hletter, hid]⟩

theorem InRange.isContent {t : Trace} (ht : t.InRange) : ∀ fs ∈ t.contents, IsContent fs := by
  have hnumber : ∀ {n}, n < numberBound → IsContent [decimal n] := fun hn =>
    ⟨List.cons_ne_nil _ _, by simpa using isField_decimal hn⟩
  simp only [contents, List.forall_mem_cons, List.forall_mem_map]
  exact ⟨hnumber ht.heap, hnumber ht.ids, hnumber ht.count, hnumber ht.weight, fun op hop =>
    isContent_opFields ht.ids (ht.ops op hop)⟩

-- A text stands for the trace that it was made from, whatever the layout.
theorem denotes_render (layout : Layout) {t : Trace} (ht : t.InRange) :
    Denotes (render layout t).toList t := by
  have hcontents := ht.isContent
  have hlines : Text.Lines (render layout t).toList (layout.lines 0 t.contents) :=
    ⟨by simp [contents, Layout.lines], layout.newline_notMem_lines hcontents, by simp [render]⟩
  have hfields := Text.forall₂_fields_iff.mpr (Eq.refl ((layout.lines 0 t.contents).map Text.fields))
  have hops : List.Forall₂ (Entry t.numIds) (t.ops.map opFields) t.ops := by
    rw [List.forall₂_map_left_iff, List.forall₂_same]
    exact fun op hop => entry_opFields ht.ids (ht.ops op hop)
  have hcount : Literal (decimal t.ops.length) (t.ops.map opFields).length := by
    rw [List.length_map]
    exact literal_decimal ht.count
  exact .intro hlines hfields (layout.filter_fields_lines hcontents) (literal_decimal ht.heap)
    (literal_decimal ht.ids) hcount (literal_decimal ht.weight) hops

-- A text is accepted when it denotes a trace, which is the one returned; so a trace can be written in any
-- layout and read back.
theorem parse_eq_ok_iff_denotes :
    (∀ (text : String) (t : Trace), parse text = .ok t ↔ Denotes text.toList t) ∧
      ∀ (layout : Layout) (t : Trace), t.InRange → parse (render layout t) = .ok t :=
  ⟨fun _ _ => parseChars_eq_ok_iff, fun layout _ ht => parseChars_eq_ok_iff.mpr (denotes_render layout ht)⟩

-- Operations are indented and stand below an empty line; every line ends with a carriage return as well.
def indented : Layout where
  above i := if i = 4 then [⟨['\r'], by decide, by decide⟩] else []
  indent i := if i < 4 then ⟨[], by decide, by decide⟩ else ⟨['\t', ' '], by decide, by decide⟩
  trail _ := ⟨['\r'], by decide, by decide⟩
  below := [⟨[], by decide, by decide⟩]

theorem parse_render_indented :
    let t : Trace := ⟨20000, 2, 1, [.alloc 1 512, .realloc 1 640, .free 1]⟩
    t.InRange ∧ parse (render indented t) = .ok t ∧
      render indented t = "20000\r\n2\r\n3\r\n1\r\n\r\n\t a 1 512\r\n\t r 1 640\r\n\t f 1\r\n" := by
  intro t
  have ht : t.InRange := ⟨by decide, by decide, by decide, by decide, by simp [t, OpInRange, numberBound]⟩
  exact ⟨ht, parse_eq_ok_iff_denotes.2 indented t ht, by decide⟩

end SegregatedFit.Trace
