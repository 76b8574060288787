import SegregatedFit.Fault
import SegregatedFit.Proofs.Text.Fields
import SegregatedFit.Trace.Parse

/-!
The grammar of traces. `Denotes text t` says what a text has to look like to stand for the trace `t`, in
terms of its lines, their fields and the numbers among these; reading accepts exactly such texts.
-/

namespace SegregatedFit.Trace

structure Digits (digits : List Char) (n : Nat) : Prop where
  nonempty : digits ≠ []
  decimal : ∀ c ∈ digits, c.isDigit
  value : Nat.ofDigitChars 10 digits 0 = n
  bound : n < numberBound

-- A number is written in decimal digits, with or without a plus sign in front.
def Literal (text : List Char) (n : Nat) : Prop :=
  Digits text n ∨ ∃ digits, text = '+' :: digits ∧ Digits digits n

-- An operation begins with its kind and its id; fields that it does not need may follow.
inductive Entry (numIds : Nat) : List (List Char) → Op → Prop
  | alloc {idText sizeText : List Char} {more : List (List Char)} {id size : Nat}
      (hid : Literal idText id) (hrange : id < numIds) (hsize : Literal sizeText size) :
      Entry numIds (['a'] :: idText :: sizeText :: more) (.alloc id size)
  | realloc {idText sizeText : List Char} {more : List (List Char)} {id size : Nat}
      (hid : Literal idText id) (hrange : id < numIds) (hsize : Literal sizeText size) :
      Entry numIds (['r'] :: idText :: sizeText :: more) (.realloc id size)
  | free {idText : List Char} {more : List (List Char)} {id : Nat} (hid : Literal idText id)
      (hrange : id < numIds) : Entry numIds (['f'] :: idText :: more) (.free id)

-- The lines that are not empty: four numbers, each alone on its line, and the operations, as many as the
-- third number says.
inductive Denotes : List Char → Trace → Prop
  | intro {text heapText idsText countText weightText : List Char} {lines : List (List Char)}
      {lineFields entries : List (List (List Char))} {heap numIds weight : Nat} {ops : List Op}
      (hlines : Text.Lines text lines) (hfields : List.Forall₂ Text.Fields lines lineFields)
      (hfilled : lineFields.filter (!·.isEmpty) =
        [heapText] :: [idsText] :: [countText] :: [weightText] :: entries)
      (hheap : Literal heapText heap) (hids : Literal idsText numIds)
      (hcount : Literal countText entries.length) (hweight : Literal weightText weight)
      (hops : List.Forall₂ (Entry numIds) entries ops) : Denotes text ⟨heap, numIds, weight, ops⟩

variable {text digits line : List Char} {value n numIds number : Nat} {c : Char} {op : Op}

theorem digit?_eq (c : Char) : digit? c = if c.isDigit then some (c.toNat - '0'.toNat) else none := by
  have hiff : ('0' ≤ c ∧ c ≤ '9') ↔ c.isDigit = true := by
    simp [Char.isDigit, Char.le_def]
  by_cases hc : c.isDigit = true
  · rw [digit?, if_pos (hiff.mpr hc), if_pos hc]
    rfl
  · rw [digit?, if_neg (mt hiff.mp hc), if_neg hc]

-- More digits make no number smaller.
theorem le_ofDigitChars (digits : List Char) (value : Nat) : value ≤ Nat.ofDigitChars 10 digits value := by
  have hpos : 0 < 10 ^ digits.length := Nat.pow_pos (by decide)
  rw [Nat.ofDigitChars_eq_ofDigitChars_zero]
  exact Nat.le_trans (Nat.le_mul_of_pos_left value hpos) (Nat.le_add_right ..)

theorem readDigits_eq_ok_iff (hvalue : value < numberBound) :
    readDigits value digits = .ok n ↔
      (∀ c ∈ digits, c.isDigit) ∧ Nat.ofDigitChars 10 digits value = n ∧ n < numberBound := by
  induction digits generalizing value with
  | nil =>
      simp only [readDigits, Except.ok.injEq, List.not_mem_nil, false_implies, implies_true, true_and,
        Nat.ofDigitChars_nil]
      exact ⟨fun h => ⟨h, h ▸ hvalue⟩, And.left⟩
  | cons c rest ih =>
      rw [readDigits, digit?_eq, Nat.ofDigitChars_cons, List.forall_mem_cons]
      by_cases hc : c.isDigit = true
      · simp only [if_pos hc]
        by_cases hlt : 10 * value + (c.toNat - '0'.toNat) < numberBound
        · rw [if_pos hlt, ih hlt, and_iff_right hc]
        · -- the number is too large already
          have hle := le_ofDigitChars rest (10 * value + (c.toNat - '0'.toNat))
          rw [if_neg hlt]
          refine iff_of_false (fun h => nomatch h) ?_
          rintro ⟨-, rfl, hbound⟩
          omega
      · simp only [if_neg hc]
        exact iff_of_false (fun h => nomatch h) fun h => hc h.1.1

theorem readDigits_zero_eq_ok_iff (hne : digits ≠ []) : readDigits 0 digits = .ok n ↔ Digits digits n := by
  rw [readDigits_eq_ok_iff (by decide)]
  exact ⟨fun ⟨hdecimal, hn, hbound⟩ => ⟨hne, hdecimal, hn, hbound⟩, fun h => ⟨h.2, h.3, h.4⟩⟩

theorem not_digits_plus (rest : List Char) : ¬Digits ('+' :: rest) n := fun h =>
  absurd (h.decimal '+' List.mem_cons_self) (by decide)

theorem readNumber_eq_ok_iff : readNumber text = .ok n ↔ Literal text n := by
  unfold readNumber
  split
  · exact iff_of_false (fun h => nomatch h) fun h => by
      rcases h with h | ⟨digits, hdigits, -⟩
      · exact h.nonempty rfl
      · cases hdigits
  · exact iff_of_false (fun h => nomatch h) fun h => by
      rcases h with h | ⟨digits, hdigits, h⟩
      · exact not_digits_plus _ h
      · exact h.nonempty (List.cons.inj hdigits).2.symm
  · rename_i digits hne
    rw [readDigits_zero_eq_ok_iff (by simpa using hne), Literal, or_iff_right (not_digits_plus _)]
    exact ⟨fun h => ⟨digits, rfl, h⟩, fun ⟨digits', hdigits, h⟩ => (List.cons.inj hdigits).2 ▸ h⟩
  · rename_i hne _ hsign
    rw [readDigits_zero_eq_ok_iff (by simpa using hne), Literal, or_iff_left]
    rintro ⟨digits, rfl, -⟩
    exact hsign digits rfl

theorem number_eq_ok_iff : Trace.number number text = .ok n ↔ Literal text n := by
  rw [← readNumber_eq_ok_iff, Trace.number]
  cases readNumber text <;> simp

-- A number is one field.
theorem Literal.isField (h : Literal text n) : Text.IsField text := by
  have hdigit : ∀ c : Char, c.isDigit = true → Text.isBlank c = false := fun c hc => by
    simp only [Char.isDigit, Bool.and_eq_true, decide_eq_true_eq, ge_iff_le, UInt32.le_iff_toNat_le] at hc
    have hbounds : 48 ≤ c.toNat ∧ c.toNat ≤ 57 := hc
    apply Bool.eq_false_iff.mpr
    intro hblank
    simp only [Text.isBlank, Bool.or_eq_true, Bool.and_eq_true, decide_eq_true_eq, beq_iff_eq] at hblank
    omega
  rcases h with h | ⟨digits, rfl, h⟩
  · exact ⟨h.nonempty, fun c hc => hdigit c (h.decimal c hc)⟩
  · refine ⟨List.cons_ne_nil _ _, fun c hc => ?_⟩
    rcases List.mem_cons.mp hc with rfl | hc
    · rfl
    · exact hdigit c (h.decimal c hc)

theorem firstNumber_eq_ok_iff {what : TraceField} {fs : List (List Char)} :
    firstNumber number what fs = .ok n ↔ ∃ text rest, fs = text :: rest ∧ Literal text n := by
  cases fs with
  | nil => simp [firstNumber]
  | cons text rest => simp [firstNumber, number_eq_ok_iff]

theorem entry_of_readOp (h : readOp numIds (number, text) = .ok op) :
    Entry numIds (Text.fields text) op := by
  unfold readOp at h
  simp only [bind_eq_ok_iff, firstNumber_eq_ok_iff] at h
  obtain ⟨id, ⟨idText, rest, hdrop, hid⟩, hop⟩ := h
  cases hfields : Text.fields text with
  | nil => simp [hfields] at hdrop
  | cons kind tail =>
      obtain rfl : tail = idText :: rest := by simpa [hfields] using hdrop
      simp only [hfields, List.headD_cons, List.drop_succ_cons, List.drop_zero] at hop
      split at hop
      · cases hop
      · rename_i hrange
        have hrange := Nat.lt_of_not_le hrange
        -- one case for each kind, and one for all that are none
        split at hop
        · obtain ⟨size, hread, hmake⟩ := bind_eq_ok_iff.mp hop
          obtain ⟨sizeText, more, rfl, hsize⟩ := firstNumber_eq_ok_iff.mp hread
          obtain rfl := Except.ok.inj hmake
          exact .alloc hid hrange hsize
        · obtain ⟨size, hread, hmake⟩ := bind_eq_ok_iff.mp hop
          obtain ⟨sizeText, more, rfl, hsize⟩ := firstNumber_eq_ok_iff.mp hread
          obtain rfl := Except.ok.inj hmake
          exact .realloc hid hrange hsize
        · obtain rfl := Except.ok.inj hop
          exact .free hid hrange
        · cases hop

theorem readOp_of_entry (h : Entry numIds (Text.fields text) op) :
    readOp numIds (number, text) = .ok op := by
  unfold readOp
  simp only [bind_eq_ok_iff, firstNumber_eq_ok_iff]
  cases hfields : Text.fields text with
  | nil => rw [hfields] at h; cases h
  | cons kind tail =>
      rw [hfields] at h
      cases h with
      | alloc hid hrange hsize =>
          refine ⟨_, ⟨_, _, rfl, hid⟩, ?_⟩
          rw [if_neg (Nat.not_le_of_lt hrange)]
          exact bind_eq_ok_iff.mpr ⟨_, firstNumber_eq_ok_iff.mpr ⟨_, _, rfl, hsize⟩, rfl⟩
      | realloc hid hrange hsize =>
          refine ⟨_, ⟨_, _, rfl, hid⟩, ?_⟩
          rw [if_neg (Nat.not_le_of_lt hrange)]
          exact bind_eq_ok_iff.mpr ⟨_, firstNumber_eq_ok_iff.mpr ⟨_, _, rfl, hsize⟩, rfl⟩
      | free hid hrange =>
          refine ⟨_, ⟨_, _, rfl, hid⟩, ?_⟩
          rw [if_neg (Nat.not_le_of_lt hrange)]
          rfl

theorem readOp_eq_ok_iff : readOp numIds (number, text) = .ok op ↔ Entry numIds (Text.fields text) op :=
  ⟨entry_of_readOp, readOp_of_entry⟩

theorem mapM_readOp_eq_ok_iff {entries : List (Nat × List Char)} {ops : List Op} :
    entries.mapM (readOp numIds) = .ok ops ↔
      List.Forall₂ (Entry numIds) (entries.map (Text.fields ·.2)) ops := by
  induction entries generalizing ops with
  | nil => simp [eq_comm]
  | cons entry rest ih =>
      obtain ⟨number, text⟩ := entry
      simp only [List.mapM_cons, bind_eq_ok_iff, pure_eq_ok, Except.ok.injEq, readOp_eq_ok_iff, ih,
        List.map_cons]
      constructor
      · rintro ⟨op, hop, ops, hops, rfl⟩
        exact .cons hop hops
      · rintro (_ | ⟨hop, hops⟩)
        exact ⟨_, hop, _, hops, rfl⟩

theorem readHeader_eq_ok_iff {what : TraceField} {entries rest : List (Nat × List Char)} :
    readHeader what entries = .ok (n, rest) ↔
      ∃ number text, entries = (number, text) :: rest ∧ Literal text n := by
  cases entries with
  | nil => simp [readHeader]
  | cons entry tail =>
      simp only [readHeader, bind_eq_ok_iff, pure_eq_ok, number_eq_ok_iff, Except.ok.injEq, Prod.mk.injEq]
      constructor
      · rintro ⟨_, hnumber, rfl, rfl⟩
        exact ⟨_, _, rfl, hnumber⟩
      · rintro ⟨number, text, hentry, hnumber⟩
        obtain ⟨rfl, rfl⟩ := List.cons.inj hentry
        exact ⟨_, hnumber, rfl, rfl⟩

-- A header line is read off its fields.
theorem readHeader_of_fields (what : TraceField) {entries : List (Nat × List Char)}
    {field : List Char} {more : List (List (List Char))} (hmem : entries ⊆ Text.numberedLines text)
    (hfields : entries.map (Text.fields ·.2) = [field] :: more) (hnumber : Literal field n) :
    ∃ rest, readHeader what entries = .ok (n, rest) ∧ rest ⊆ Text.numberedLines text ∧
      rest.map (Text.fields ·.2) = more := by
  obtain ⟨⟨number, line⟩, rest, rfl, hfirst, hrest⟩ := List.map_eq_cons_iff.mp hfields
  obtain ⟨hline, hmem⟩ := List.cons_subset.mp hmem
  have hline : line = field := Text.eq_of_mem_numberedLines hline hfirst
  exact ⟨rest, readHeader_eq_ok_iff.mpr ⟨number, line, rfl, hline ▸ hnumber⟩, hmem, hrest⟩

theorem denotes_of_parseChars {t : Trace} (h : parseChars text = .ok t) : Denotes text t := by
  simp only [parseChars, bind_eq_ok_iff, Prod.exists, readHeader_eq_ok_iff] at h
  obtain ⟨heap, _, ⟨_, heapText, hentries, hheap⟩, numIds, _, ⟨_, idsText, rfl, hids⟩, count, _,
    ⟨_, countText, rfl, hcount⟩, weight, rest, ⟨_, weightText, rfl, hweight⟩, ops, hops, h⟩ := h
  have hops := mapM_readOp_eq_ok_iff.mp hops
  have hcounted : ops.length = count := by
    by_contra hne
    rw [if_pos hne] at h
    cases h
  rw [if_neg (not_not_intro hcounted)] at h
  obtain rfl := Except.ok.inj h
  have hlength : (rest.map (Text.fields ·.2)).length = count := hops.length_eq.trans hcounted
  have hfilled := Text.fields_numberedLines text
  rw [hentries] at hfilled
  simp only [List.map_cons, Text.fields_eq_singleton, hheap.isField, hids.isField, hcount.isField,
    hweight.isField] at hfilled
  exact .intro (Text.splitOn_newline_eq_iff.mp rfl) (Text.forall₂_fields_iff.mpr rfl) hfilled.symm hheap hids
    (hlength ▸ hcount) hweight hops

theorem parseChars_of_denotes {t : Trace} (h : Denotes text t) : parseChars text = .ok t := by
  obtain ⟨hlines, hfields, hfilled, hheap, hids, hcount, hweight, hops⟩ := h
  have hentries := Text.fields_numberedLines text
  rw [Text.splitOn_newline_eq_iff.mpr hlines, Text.forall₂_fields_iff.mp hfields, hfilled] at hentries
  obtain ⟨_, hreadHeap, hmem, hrest⟩ :=
    readHeader_of_fields .heapSize (List.Subset.refl _) hentries hheap
  obtain ⟨_, hreadIds, hmem, hrest⟩ := readHeader_of_fields .idCount hmem hrest hids
  obtain ⟨_, hreadCount, hmem, hrest⟩ := readHeader_of_fields .opCount hmem hrest hcount
  obtain ⟨_, hreadWeight, -, rfl⟩ := readHeader_of_fields .weight hmem hrest hweight
  have hreadOps := mapM_readOp_eq_ok_iff.mpr hops
  simp [parseChars, hreadHeap, hreadIds, hreadCount, hreadWeight, hreadOps, ← hops.length_eq]

-- Reading gives a trace to the texts that denote one, and to no others.
theorem parseChars_eq_ok_iff {t : Trace} : parseChars text = .ok t ↔ Denotes text t :=
  ⟨denotes_of_parseChars, parseChars_of_denotes⟩

end SegregatedFit.Trace
