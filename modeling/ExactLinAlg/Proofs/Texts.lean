import ExactLinAlg.Text
import ExactLinAlg.Proofs.Arithmetic
import Mathlib

/-!
# Texts

The text of a fraction is read back as the fraction (`Fraction.parse?_text`). Its text as a mixed
number follows a grammar for texts and their values (`Fraction.IsMixed`), and a text of this grammar
is read back as its value (`Fraction.readMixed?_of_isMixed`). In the texts of vectors and matrices,
the first character of a separator does not occur in what is listed, so the text determines the list
(`eq_of_intercalate_map`).
-/

namespace ExactLinAlg

/-! ## Separators -/

section Separators

variable {c : Char} {u v w rest rest' : List Char}

theorem forall_bne_of_notMem (h : c ∉ w) : ∀ d ∈ w, (d != c) = true := by
  intro d hd
  rw [bne_iff_ne]
  rintro rfl
  exact h hd

/-- What is read up to a character that does not occur is everything. -/
theorem span_of_notMem (h : c ∉ w) : w.span (· != c) = (w, []) := by
  have hbne := forall_bne_of_notMem h
  rw [List.span_eq_takeWhile_dropWhile, List.takeWhile_eq_self_iff.2 hbne,
    List.dropWhile_eq_nil_iff.2 hbne]

theorem span_append_cons (h : c ∉ w) : (w ++ c :: rest).span (· != c) = (w, c :: rest) := by
  have hbne := forall_bne_of_notMem h
  rw [List.span_eq_takeWhile_dropWhile, List.takeWhile_append_of_pos hbne,
    List.dropWhile_append_of_pos hbne]
  simp

/-- The first occurrence of a character splits a text in one way. -/
theorem append_cons_inj (hu : c ∉ u) (hv : c ∉ v) (h : u ++ c :: rest = v ++ c :: rest') :
    u = v ∧ rest = rest' := by
  have hspan : (u ++ c :: rest).span (· != c) = (u, c :: rest) := span_append_cons hu
  rw [h, span_append_cons hv] at hspan
  simp_all

/-- Two lists that are not empty are the same if their entries are the same between separators: up
to the first separator both have their first entry. -/
theorem cons_of_intercalate {sep : List Char} {us vs : List (List Char)}
    (hu : ∀ w ∈ u :: us, c ∉ w) (hv : ∀ w ∈ v :: vs, c ∉ w)
    (h : (c :: sep).intercalate (u :: us) = (c :: sep).intercalate (v :: vs)) :
    u :: us = v :: vs := by
  induction us generalizing u v vs with
  | nil =>
    cases vs with
    | nil => simpa using h
    | cons v' vs =>
      -- One of the lists has a separator that the other one has not.
      rw [List.intercalate_singleton, List.intercalate_cons_cons] at h
      exact absurd (by simp [h]) (hu u List.mem_cons_self)
  | cons u' us ih =>
    cases vs with
    | nil =>
      rw [List.intercalate_singleton, List.intercalate_cons_cons] at h
      exact absurd (by simp [← h]) (hv v List.mem_cons_self)
    | cons v' vs =>
      rw [List.intercalate_cons_cons, List.intercalate_cons_cons, List.append_assoc,
        List.append_assoc] at h
      obtain ⟨rfl, htail⟩ :=
        append_cons_inj (hu u List.mem_cons_self) (hv v List.mem_cons_self) h
      rw [ih (fun w hw => hu w (List.mem_cons_of_mem u hw))
        (fun w hw => hv w (List.mem_cons_of_mem u hw)) (List.append_cancel_left htail)]

/-- What is listed between separators is determined if their first character occurs nowhere else. -/
theorem eq_of_intercalate_map {α : Type} {f : α → List Char} (hf : Function.Injective f)
    (hne : ∀ a, f a ≠ []) (hc : ∀ a, c ∉ f a) {sep : List Char} {l l' : List α}
    (h : (c :: sep).intercalate (l.map f) = (c :: sep).intercalate (l'.map f)) : l = l' := by
  have hnotMem (l : List α) : ∀ w ∈ l.map f, c ∉ w := by
    simpa using fun a _ => hc a
  cases l with
  | nil =>
    cases l' with
    | nil => rfl
    | cons b l' => cases l' <;> simp [hne] at h
  | cons a l =>
    cases l' with
    | nil => cases l <;> simp [hne] at h
    | cons b l' =>
      exact hf.list_map (cons_of_intercalate (hnotMem (a :: l)) (hnotMem (b :: l')) h)

theorem notMem_intercalate {sep : List Char} {ws : List (List Char)} (hsep : c ∉ sep)
    (hws : ∀ w ∈ ws, c ∉ w) : c ∉ sep.intercalate ws := by
  induction ws with
  | nil => simp
  | cons w ws ih =>
    obtain ⟨hw, hws⟩ := List.forall_mem_cons.1 hws
    cases ws with
    | nil => simpa using hw
    | cons w' ws => simp [hw, hsep, ih hws]

end Separators

/-! ## Numerals -/

theorem toString_self (s : String) : toString s = s := rfl

theorem notMem_toDigits {c : Char} (hc : c.isDigit = false) (n : ℕ) : c ∉ Nat.toDigits 10 n := by
  intro hmem
  have hdigit := Nat.isDigit_of_mem_toDigits (by decide : 0 < 10) (by decide) hmem
  simp [hc] at hdigit

theorem notMem_intRepr {c : Char} (hc : c.isDigit = false) (hminus : c ≠ '-') (z : ℤ) :
    c ∉ z.repr.toList := by
  rw [Int.repr_eq_if]
  split
  · simp [notMem_toDigits hc]
  · simp [notMem_toDigits hc, hminus]

namespace Fraction

variable {a b : Fraction} {s : String} {q : ℚ}

/-! ## Fractions -/

theorem toList_text (a : Fraction) :
    a.text.toList = a.num.toInt.repr.toList ++ '/' :: a.den.toInt.repr.toList := by
  simp [text, toString_self, Int.toString_eq_repr]

theorem notMem_text {c : Char} (hc : c.isDigit = false) (hminus : c ≠ '-') (hstroke : c ≠ '/') :
    c ∉ a.text.toList := by
  simp [toList_text, notMem_intRepr hc hminus, hstroke]

theorem splitText?_text (a : Fraction) : splitText? a.text = some (a.num.toInt, a.den.toInt) := by
  rw [splitText?, toList_text, span_append_cons (notMem_intRepr (by decide) (by decide) _)]
  simp [Int.toInt?_repr]

/-- A fraction is read back from its text. -/
theorem parse?_text (a : Fraction) : parse? a.text = some (.ok a) := by
  have hnum : Word.ofInt a.num.toInt = .ok a.num := Word.ofInt_eq_ok_iff.2 rfl
  have hden : Word.ofInt a.den.toInt = .ok a.den := Word.ofInt_eq_ok_iff.2 rfl
  rw [parse?, splitText?_text]
  simp only [hnum, hden, Option.pure_def, Option.bind_eq_bind, Option.bind_some]
  exact congrArg some (make_parts a)

theorem text_injective (h : a.text = b.text) : a = b := by
  have hparse := parse?_text a
  rw [h, parse?_text] at hparse
  simpa using hparse.symm

/-! ## Mixed numbers -/

/-- The texts of numbers that are not negative, with their values: an integer, a proper fraction in
lowest terms, or both with a space between them. -/
inductive IsUnsigned : String → ℚ → Prop
  | integer (n : ℕ) : IsUnsigned s!"{n}" n
  | proper {rem den : ℕ} (hrem : 0 < rem) (hlt : rem < den) (hcoprime : rem.Coprime den) :
      IsUnsigned s!"{rem}/{den}" (rem / den)
  | mixed {whole rem den : ℕ} (hwhole : 0 < whole) (hrem : 0 < rem) (hlt : rem < den)
      (hcoprime : rem.Coprime den) :
      IsUnsigned s!"{whole} {rem}/{den}" (whole + rem / den)

/-- The texts of mixed numbers, with their values: only a negative one has a sign. -/
inductive IsMixed : String → ℚ → Prop
  | plain {s : String} {q : ℚ} (h : IsUnsigned s q) : IsMixed s q
  | minus {s : String} {q : ℚ} (h : IsUnsigned s q) (hq : 0 < q) : IsMixed ("-" ++ s) (-q)

/-- The integer without a sign that a text denotes. -/
def readNat? (cs : List Char) : Option ℚ := (String.ofList cs).toNat?.map (↑)

/-- The number without a sign that a text without a space denotes. -/
def readRatio? (cs : List Char) : Option ℚ :=
  match cs.span (· != '/') with
  | (num, []) => readNat? num
  | (num, _ :: den) => return (← readNat? num) / (← readNat? den)

/-- The number without a sign that a text denotes. -/
def readUnsigned? (cs : List Char) : Option ℚ :=
  match cs.span (· != ' ') with
  | (ratio, []) => readRatio? ratio
  | (whole, _ :: ratio) => return (← readNat? whole) + (← readRatio? ratio)

/-- The mixed number that a text denotes. -/
def readMixed? (s : String) : Option ℚ :=
  match s.toList with
  | '-' :: cs => (- ·) <$> readUnsigned? cs
  | cs => readUnsigned? cs

@[simp] theorem readNat?_toDigits (n : ℕ) : readNat? (Nat.toDigits 10 n) = some (n : ℚ) := by
  rw [readNat?, ← Nat.repr_eq_ofList_toDigits, Nat.toNat?_repr, Option.map_some]

@[simp] theorem readRatio?_toDigits (n : ℕ) : readRatio? (Nat.toDigits 10 n) = some (n : ℚ) := by
  rw [readRatio?, span_of_notMem (notMem_toDigits (by decide) n)]
  exact readNat?_toDigits n

@[simp] theorem readRatio?_stroke (n d : ℕ) :
    readRatio? (Nat.toDigits 10 n ++ '/' :: Nat.toDigits 10 d) = some (n / d : ℚ) := by
  rw [readRatio?, span_append_cons (notMem_toDigits (by decide) n)]
  simp

theorem readUnsigned?_of_notMem {cs : List Char} (h : ' ' ∉ cs) :
    readUnsigned? cs = readRatio? cs := by
  rw [readUnsigned?, span_of_notMem h]

theorem toList_integer (n : ℕ) : (s!"{n}").toList = Nat.toDigits 10 n := by
  simp

theorem toList_proper (n d : ℕ) :
    (s!"{n}/{d}").toList = Nat.toDigits 10 n ++ '/' :: Nat.toDigits 10 d := by
  simp [toString_self]

theorem toList_mixed (w n d : ℕ) : (s!"{w} {n}/{d}").toList =
    Nat.toDigits 10 w ++ ' ' :: (Nat.toDigits 10 n ++ '/' :: Nat.toDigits 10 d) := by
  simp [toString_self]

theorem readUnsigned?_of_isUnsigned (h : IsUnsigned s q) :
    readUnsigned? s.toList = some q := by
  cases h with
  | integer n =>
    rw [toList_integer, readUnsigned?_of_notMem (notMem_toDigits (by decide) n)]
    exact readRatio?_toDigits n
  | @proper rem den =>
    rw [toList_proper, readUnsigned?_of_notMem (by simp [notMem_toDigits])]
    exact readRatio?_stroke rem den
  | @mixed whole rem den =>
    rw [toList_mixed, readUnsigned?, span_append_cons (notMem_toDigits (by decide) whole)]
    simp

theorem notMem_of_isUnsigned (h : IsUnsigned s q) : '-' ∉ s.toList := by
  cases h with
  | _ => simp [toString_self, notMem_toDigits]

/-- A mixed number is read back from its text. -/
theorem readMixed?_of_isMixed (h : IsMixed s q) : readMixed? s = some q := by
  cases h with
  | plain h =>
    have hsign := notMem_of_isUnsigned h
    rw [readMixed?]
    split
    · next hs => simp [hs] at hsign
    · exact readUnsigned?_of_isUnsigned h
  | minus h =>
    simp [readMixed?, readUnsigned?_of_isUnsigned h]

/-! ## The text of a fraction as a mixed number -/

theorem num_eq_whole (a : Fraction) :
    a.num.toInt = a.den.toInt * a.whole + a.num.toInt.tmod a.den.toInt :=
  (Int.mul_tdiv_add_tmod ..).symm

/-- The parts of a fraction that is not negative. -/
theorem toRat_eq_whole_add (h : 0 ≤ a.num.toInt) :
    a.toRat = a.whole.natAbs + a.remainder / a.den.toInt.natAbs := by
  have hwhole : (a.whole.natAbs : ℤ) = a.whole :=
    Int.natAbs_of_nonneg (Int.tdiv_nonneg h a.den_pos.le)
  have hrem : (a.remainder : ℤ) = a.num.toInt.tmod a.den.toInt :=
    Int.natAbs_of_nonneg (Int.tmod_nonneg _ h)
  have hden : (a.den.toInt.natAbs : ℤ) = a.den.toInt := Int.natAbs_of_nonneg a.den_pos.le
  have hden' := a.den_cast_ne_zero
  rw [toRat_eq_div, ← Int.cast_natCast, ← Int.cast_natCast a.remainder,
    ← Int.cast_natCast a.den.toInt.natAbs, hwhole, hrem, hden, div_eq_iff hden', add_mul,
    div_mul_cancel₀ _ hden', mul_comm (a.whole : ℚ)]
  exact_mod_cast a.num_eq_whole

theorem remainder_lt (a : Fraction) : a.remainder < a.den.toInt.natAbs := by
  rw [remainder, Int.natAbs_tmod]
  exact Nat.mod_lt _ (Int.natAbs_pos.2 a.den_pos.ne')

theorem coprime_remainder (a : Fraction) : a.remainder.Coprime a.den.toInt.natAbs := by
  rw [remainder, Int.natAbs_tmod, Nat.Coprime, (Nat.mod_modEq _ _).gcd_eq]
  exact a.coprime

/-- A fraction that is not negative has no sign. -/
theorem isUnsigned_mixedText (h : 0 ≤ a.num.toInt) : IsUnsigned a.mixedText a.toRat := by
  have hden : a.den.toInt = (a.den.toInt.natAbs : ℤ) := (Int.natAbs_of_nonneg a.den_pos.le).symm
  have hwhole : a.whole = (a.whole.natAbs : ℤ) :=
    (Int.natAbs_of_nonneg (Int.tdiv_nonneg h a.den_pos.le)).symm
  have hlt := a.remainder_lt
  have hcoprime := a.coprime_remainder
  rw [toRat_eq_whole_add h, mixedText, if_neg (not_lt.2 h)]
  simp only [toString_self, String.empty_append]
  generalize a.whole = w at *
  generalize a.remainder = r at *
  generalize a.den.toInt = d at *
  split
  · next hrem =>
    rw [hrem, Nat.cast_zero, zero_div, add_zero, hwhole]
    exact .integer _
  · next hrem =>
    have hpos := Nat.pos_of_ne_zero hrem
    split
    · next hzero =>
      rw [hden, hzero, Int.natAbs_zero, Nat.cast_zero, zero_add]
      exact .proper hpos hlt hcoprime
    · next hne =>
      rw [hden]
      exact .mixed (Int.natAbs_pos.2 hne) hpos hlt hcoprime

/-- The text of a negative fraction is that of its opposite behind a sign. -/
theorem mixedText_of_neg (h : a.num.toInt < 0) : a.mixedText = "-" ++ (-a).mixedText := by
  have hnum := a.toInt_num_neg
  have hwhole : (-a).whole = -a.whole := by
    rw [whole, hnum, den_neg, Int.neg_tdiv, whole]
  have hrem : (-a).remainder = a.remainder := by
    rw [remainder, hnum, den_neg, Int.neg_tmod, Int.natAbs_neg, remainder]
  have hle : a.whole ≤ 0 := by
    rw [← neg_nonneg, ← hwhole]
    exact Int.tdiv_nonneg (by omega) a.den_pos.le
  have hsplit := a.num_eq_whole
  rw [mixedText, mixedText, hwhole, hrem, hnum, den_neg, if_pos h,
    if_neg (show ¬ -a.num.toInt < 0 by omega)]
  simp only [toString_self, String.empty_append, neg_eq_zero, Int.natAbs_neg]
  by_cases hzero : a.remainder = 0
  · have hneg : a.whole < 0 := by
      refine hle.lt_of_ne ?_
      intro hwhole
      rw [Int.natAbs_eq_zero.1 hzero, hwhole, mul_zero, add_zero] at hsplit
      omega
    rw [if_pos hzero, if_pos hzero, Int.toString_eq_repr, Int.toString_eq_repr, Int.repr_eq_if,
      Int.repr_eq_if, if_neg (not_le.2 hneg), if_pos (by omega)]
  · rw [if_neg hzero, if_neg hzero]
    split <;> simp only [String.append_assoc]

/-- The text of a fraction as a mixed number is one for its value. -/
theorem isMixed_mixedText (a : Fraction) : IsMixed a.mixedText a.toRat := by
  rcases lt_or_ge a.num.toInt 0 with h | h
  · have hopposite : 0 ≤ (-a).num.toInt := by
      rw [toInt_num_neg]
      omega
    rw [mixedText_of_neg h, ← neg_neg a.toRat, ← toRat_neg]
    refine .minus (isUnsigned_mixedText hopposite) ?_
    rw [toRat_neg, neg_pos, toRat_eq_div]
    exact div_neg_of_neg_of_pos (by exact_mod_cast h) (by exact_mod_cast a.den_pos)
  · exact .plain (isUnsigned_mixedText h)

theorem mixedText_injective (h : a.mixedText = b.mixedText) : a = b := by
  have hread := readMixed?_of_isMixed a.isMixed_mixedText
  rw [h, readMixed?_of_isMixed b.isMixed_mixedText] at hread
  exact toRat_injective (Option.some.inj hread).symm

end Fraction

/-! ## Vectors and matrices -/

namespace Vec

variable {v w : Vec}

theorem toList_text (v : Vec) :
    v.text.toList = '[' :: ([',', ' '].intercalate (v.map (·.text.toList)) ++ [']']) := by
  simp [text, toString_self, Function.comp_def]

theorem text_injective (h : v.text = w.text) : v = w := by
  have hlist := congrArg String.toList h
  rw [toList_text, toList_text, List.cons_inj_right, List.append_cancel_right_eq] at hlist
  refine eq_of_intercalate_map ?_ ?_ ?_ hlist
  · exact fun a b hab => Fraction.text_injective (String.toList_injective hab)
  · intro a
    simp [Fraction.toList_text]
  · exact fun a => Fraction.notMem_text (by decide) (by decide) (by decide)

theorem newline_notMem_text (v : Vec) : '\n' ∉ v.text.toList := by
  have hsep : '\n' ∉ [',', ' '] := by decide
  have hentries : ∀ w ∈ v.map (·.text.toList), '\n' ∉ w := by
    intro w hw
    obtain ⟨a, -, rfl⟩ := List.mem_map.1 hw
    exact Fraction.notMem_text (by decide) (by decide) (by decide)
  simp [toList_text, notMem_intercalate hsep hentries]

end Vec

namespace Mat

variable {m n : Mat}

theorem toList_text (m : Mat) :
    m.text.toList = '[' :: (['\n'].intercalate (m.data.map (·.text.toList)) ++ [']']) := by
  simp [text, toString_self, Function.comp_def]

theorem data_eq_of_text (h : m.text = n.text) : m.data = n.data := by
  have hlist := congrArg String.toList h
  rw [toList_text, toList_text, List.cons_inj_right, List.append_cancel_right_eq] at hlist
  refine eq_of_intercalate_map ?_ ?_ Vec.newline_notMem_text hlist
  · exact fun v w hvw => Vec.text_injective (String.toList_injective hvw)
  · intro v
    simp [Vec.toList_text]

theorem text_injective (hm : m.WellFormed) (hn : n.WellFormed) (hrows : 0 < m.rows)
    (h : m.text = n.text) : m = n := by
  have hdata := data_eq_of_text h
  have hpos : 0 < m.data.length := hm.length_data.symm ▸ hrows
  have hrow := List.getElem_mem hpos
  have hcols : m.cols = n.cols := by
    rw [← hm.length_row _ hrow]
    exact hn.length_row _ (hdata ▸ hrow)
  have hrows : m.rows = n.rows := by rw [← hm.length_data, hdata, hn.length_data]
  cases m
  cases n
  simp_all

end Mat

/-! ## All texts -/

/-- **Texts lose nothing.** A fraction is read back from its text. Its text as a mixed number is one
for its value, `0` for zero only, and different from that of every other fraction. Different vectors
have different texts, and so have different matrices unless both are without rows. -/
theorem texts_faithful (a b : Fraction) (v w : Vec) (m n : Mat) :
    Fraction.parse? a.text = some (.ok a) ∧
      (Fraction.IsMixed a.mixedText a.toRat ∧ (a.mixedText = "0" ↔ a = 0) ∧
        (a.mixedText = b.mixedText ↔ a = b)) ∧
      (v.text = w.text ↔ v = w) ∧
      (m.WellFormed → n.WellFormed → 0 < m.rows → (m.text = n.text ↔ m = n)) := by
  have hzero : (0 : Fraction).mixedText = "0" := by decide +kernel
  refine ⟨a.parse?_text, ⟨a.isMixed_mixedText, ?_, ?_⟩, ?_, ?_⟩
  · rw [← hzero]
    exact ⟨Fraction.mixedText_injective, fun h => h ▸ rfl⟩
  · exact ⟨Fraction.mixedText_injective, fun h => h ▸ rfl⟩
  · exact ⟨Vec.text_injective, fun h => h ▸ rfl⟩
  · exact fun hm hn hrows => ⟨Mat.text_injective hm hn hrows, fun h => h ▸ rfl⟩

/-- A fraction with a sign, a whole part and a remainder, and two matrices with empty rows. -/
theorem texts_faithful_of_seven_halves :
    let a : Fraction := ⟨-7, 2, by decide, by decide, by decide⟩
    let m : Mat := ⟨1, 0, [[]]⟩
    let n : Mat := ⟨2, 0, [[], []]⟩
    a.text = "-7/2" ∧ Fraction.parse? a.text = some (.ok a) ∧ a.mixedText = "-3 1/2" ∧
      Fraction.IsMixed a.mixedText a.toRat ∧
      m.WellFormed ∧ n.WellFormed ∧ 0 < m.rows ∧ m.text = "[[]]" ∧ n.text = "[[]\n[]]" ∧
      (m.text = n.text ↔ m = n) := by
  intro a m n
  have hm : m.WellFormed := ⟨rfl, by decide⟩
  have hn : n.WellFormed := ⟨rfl, by decide⟩
  obtain ⟨hparse, ⟨hmixed, -⟩, -, hmat⟩ := texts_faithful a a [] [] m n
  exact ⟨by decide +kernel, hparse, by decide +kernel, hmixed, hm, hn, by decide,
    by decide +kernel, by decide +kernel, hmat hm hn (by decide)⟩

end ExactLinAlg
