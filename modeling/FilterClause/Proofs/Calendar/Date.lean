import FilterClause.Calendar.Date
import FilterClause.Proofs.Numeric.Digit

/-!
# Written dates

A number padded with zeros is read back from as many digits as it may have, and so is a year with a
sign up to the first character that is no digit. Hence the text of a date is read back as the date.
-/

namespace FilterClause

theorem Text.skipBlanks_cons {c : Char} (hc : isBlank c = false) (s : List Char) :
    skipBlanks (c :: s) = c :: s := by
  rw [skipBlanks, List.dropWhile_cons_of_neg (by rw [hc]; exact Bool.false_ne_true)]

theorem Digit.isBlank_char (d : Digit) : Text.isBlank d.char = false := by
  have h : ∀ d : Digit, Text.isBlank d.char = false := by decide
  exact h d

namespace Calendar

/-- The digits of a padded number, which are as many as its width if it is small enough. -/
theorem padded_eq (width n : ℕ) :
    ∃ digits : List Digit, padded width n = digits.map Digit.char ∧ Digit.toNat digits = n ∧
      digits ≠ [] ∧ (0 < width → n < 10 ^ width → digits.length = width) := by
  refine ⟨List.replicate (width - (Digit.ofNat n).length) Digit.zero ++ Digit.ofNat n,
    ?_, ?_, ?_, ?_⟩
  · simp only [padded, List.map_append, List.map_replicate, List.length_map]
    rfl
  · rw [Digit.toNat_append, Digit.toNat_replicate_zero, Digit.toNat_ofNat, Nat.zero_mul,
      Nat.zero_add]
  · simp [Digit.ofNat_ne_nil]
  · intro hw hn
    have hlen := (Digit.length_ofNat_le_iff hw).mpr hn
    rw [List.length_append, List.length_replicate]
    omega

/-- A padded number begins with a digit. -/
theorem exists_padded_eq_cons (width n : ℕ) :
    ∃ (d : Digit) (s : List Char), padded width n = d.char :: s := by
  obtain ⟨digits, hchars, -, hne, -⟩ := padded_eq width n
  obtain ⟨d, ds, rfl⟩ := List.exists_cons_of_ne_nil hne
  exact ⟨d, _, hchars⟩

theorem skipBlanks_padded (width n : ℕ) (s : List Char) :
    Text.skipBlanks (padded width n ++ s) = padded width n ++ s := by
  obtain ⟨d, t, h⟩ := exists_padded_eq_cons width n
  rw [h, List.cons_append, Text.skipBlanks_cons d.isBlank_char]

theorem readNumber_padded {width n : ℕ} (hw : 0 < width) (h : n < 10 ^ width) (s : List Char) :
    readNumber width (padded width n ++ s) = some (n, s) := by
  obtain ⟨digits, hchars, hvalue, hne, hlen⟩ := padded_eq width n
  have hspan : (Digit.span (digits.map Digit.char)).1 = digits := by
    have hs := Digit.span_map_char digits (s := []) (by simp [Digit.Ends])
    rw [List.append_nil] at hs
    rw [hs]
  have htake : (digits.map Digit.char ++ s).take width = digits.map Digit.char :=
    List.take_left' (by rw [List.length_map, hlen hw h])
  have hdrop : (digits.map Digit.char ++ s).drop digits.length = s :=
    List.drop_left' (List.length_map _)
  obtain ⟨d, ds, rfl⟩ := List.exists_cons_of_ne_nil hne
  simp only [readNumber, skipBlanks_padded]
  rw [hchars, htake, hspan]
  simp only [hdrop, hvalue]

theorem readAllDigits_padded (width n : ℕ) {s : List Char} (hs : Digit.Ends s) :
    readAllDigits (padded width n ++ s) = some (n, s) := by
  obtain ⟨digits, hchars, hvalue, hne, -⟩ := padded_eq width n
  obtain ⟨d, ds, rfl⟩ := List.exists_cons_of_ne_nil hne
  rw [readAllDigits, hchars, Digit.span_map_char _ hs]
  simp only [hvalue]

theorem readYear_yearText (year : ℤ) {s : List Char} (hs : Digit.Ends s) :
    readYear (Date.yearText year ++ s) = some (year, s) := by
  unfold Date.yearText
  split
  · next h =>
    obtain ⟨d, t, ht⟩ := exists_padded_eq_cons 4 year.toNat
    have hd : d.char ≠ '-' ∧ d.char ≠ '+' := by
      have hall : ∀ d : Digit, d.char ≠ '-' ∧ d.char ≠ '+' := by decide
      exact hall d
    have hread : readNumber 4 (padded 4 year.toNat ++ s) = some (year.toNat, s) :=
      readNumber_padded (by decide) (by omega) s
    have hvalue : ((year.toNat : ℕ) : ℤ) = year := by omega
    rw [readYear, skipBlanks_padded]
    rw [ht, List.cons_append] at hread ⊢
    split
    · next he => exact absurd (List.cons.inj he).1 hd.1
    · next he => exact absurd (List.cons.inj he).1 hd.2
    · rw [hread, Option.map_some, hvalue]
  · next h =>
    have hread := readAllDigits_padded 4 year.natAbs hs
    by_cases hneg : year < 0
    · have hvalue : -((year.natAbs : ℕ) : ℤ) = year := by omega
      rw [if_pos hneg, List.cons_append, readYear, Text.skipBlanks_cons (by decide)]
      simp only [hread, Option.map_some, hvalue]
    · have hvalue : ((year.natAbs : ℕ) : ℤ) = year := by omega
      rw [if_neg hneg, List.cons_append, readYear, Text.skipBlanks_cons (by decide)]
      simp only [hread, Option.map_some, hvalue]

theorem readMark_skipBlanks {mark : Char} (h : Text.isBlank mark = false) (s : List Char) :
    readMark mark (Text.skipBlanks (mark :: s)) = some s := by
  rw [Text.skipBlanks_cons h, readMark, if_pos rfl]

theorem month_le_of_day {year : ℤ} {month day : ℕ}
    (h : 1 ≤ day ∧ day ≤ daysInMonth year month) : month ≤ 12 ∧ day ≤ 31 := by
  unfold daysInMonth at h
  split at h <;> first | omega | split at h <;> omega

theorem ofParts?_self (d : Date) : Date.ofParts? d.year d.month d.day = some d := by
  rw [Date.ofParts?, dif_pos d.year_mem, dif_pos d.day_mem]

/-- A date is read back, whatever follows it. -/
theorem readDate_chars (d : Date) (s : List Char) : readDate (d.chars ++ s) = some (d, s) := by
  obtain ⟨hmonth, hday⟩ := month_le_of_day d.day_mem
  have hends (t : List Char) : Digit.Ends ('-' :: t) := by
    intro c hc
    cases hc
    decide
  have hm (t : List Char) : readNumber 2 (padded 2 d.month ++ t) = some (d.month, t) :=
    readNumber_padded (by decide) (by omega) t
  have hd (t : List Char) : readNumber 2 (padded 2 d.day ++ t) = some (d.day, t) :=
    readNumber_padded (by decide) (by omega) t
  simp only [readDate, Date.chars, List.append_assoc, List.cons_append,
    readYear_yearText d.year (hends _), Option.bind_eq_bind, Option.bind_some,
    readMark_skipBlanks (show Text.isBlank '-' = false by decide), hm, hd, ofParts?_self]
  rfl

end Calendar

theorem Date.ofText?_text (d : Date) : ofText? d.text = some d := by
  have h := Calendar.readDate_chars d []
  rw [List.append_nil] at h
  rw [ofText?, text, String.toList_ofList, h]
  rfl

end FilterClause
