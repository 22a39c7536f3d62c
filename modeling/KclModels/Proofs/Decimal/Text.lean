import Std.Data.String.ToInt
import KclModels.Decimal.Layout
import KclModels.Document.Printer
import KclModels.Proofs.Decimal.Shortest
import KclModels.Proofs.Text.Cut

/-!
# The text of a number says which number it is

The digits of a number stand for the same decimal in their places and with an exponent, and it reads
back as the number. So finite numbers with one text are the same. An integer has neither a point nor
an exponent, which all others have.
-/

namespace KclModels

namespace Double

/-! ## What a decimal text stands for -/

/-- The number that digits with a point stand for, times a power of ten. -/
def pointedValue (cs : List Char) (power : Int) : ℚ :=
  match Text.cutChars '.' cs with
  | some (whole, fraction) => decimal (digitsValue (whole ++ fraction)) (power - fraction.length)
  | none => decimal (digitsValue cs) power

/-- The power that digits after a sign stand for. -/
def powerValue : List Char → Int
  | '-' :: digits => -digitsValue digits
  | '+' :: digits => digitsValue digits
  | digits => digitsValue digits

/-- The number that a decimal without sign stands for. -/
def textValue (cs : List Char) : ℚ :=
  match Text.cutChars 'e' cs with
  | some (before, power) => pointedValue before (powerValue power)
  | none => pointedValue cs 0

/-- Whether a character can stand in the text of a number. -/
def isNumberChar (c : Char) : Bool := c.isDigit || c = '-' || c = '+' || c = '.' || c = 'e'

/-- A text with a point or an exponent that stands for `v`. -/
structure IsDecimal (text : String) (v : ℚ) : Prop where
  chars : ∀ c ∈ text.toList, isNumberChar c = true
  head : text.toList.head?.any Char.isDigit = true
  marked : '.' ∈ text.toList ∨ 'e' ∈ text.toList
  value : textValue text.toList = v

variable {digits fraction whole : List Char} {x y : Double}

theorem digitsValue_eq (digits : List Char) :
    digitsValue digits = Nat.ofDigitChars 10 digits 0 := rfl

theorem digitsValue_toDigits (n : Nat) : digitsValue (Nat.toDigits 10 n) = n :=
  Nat.ofDigitChars_ten_toDigits

theorem digitsValue_append_zeros (digits : List Char) (n : Nat) :
    digitsValue (digits ++ List.replicate n '0') = 10 ^ n * digitsValue digits := by
  rw [digitsValue_eq, Nat.ofDigitChars_append, Nat.ofDigitChars_replicate_zero]
  rfl

theorem digitsValue_zeros_append (n : Nat) (digits : List Char) :
    digitsValue (List.replicate n '0' ++ digits) = digitsValue digits := by
  rw [digitsValue_eq, Nat.ofDigitChars_append, Nat.ofDigitChars_replicate_zero, Nat.mul_zero]
  rfl

/-- Zeros after a decimal are a power of ten. -/
theorem decimal_append_zeros (digits : List Char) (n : Nat) (e : Int) :
    decimal (digitsValue (digits ++ List.replicate n '0')) e =
      decimal (digitsValue digits) (e + n) := by
  rw [decimal, decimal, digitsValue_append_zeros, zpow_add₀ (by norm_num), zpow_natCast]
  push_cast
  ring

theorem notMem_of_digits (h : ∀ c ∈ digits, c.isDigit = true) {c : Char} (hc : c.isDigit = false) :
    c ∉ digits := by
  intro hmem
  rw [h c hmem] at hc
  exact absurd hc (by decide)

theorem pointedValue_digits (h : ∀ c ∈ digits, c.isDigit = true) (power : Int) :
    pointedValue digits power = decimal (digitsValue digits) power := by
  rw [pointedValue, Text.cutChars_eq_none (notMem_of_digits h (by decide))]

theorem pointedValue_append (h : ∀ c ∈ whole, c.isDigit = true) (power : Int) :
    pointedValue (whole ++ '.' :: fraction) power =
      decimal (digitsValue (whole ++ fraction)) (power - fraction.length) := by
  rw [pointedValue, Text.cutChars_append (notMem_of_digits h (by decide))]

theorem isNumberChar_of_isDigit {c : Char} (h : c.isDigit = true) : isNumberChar c = true := by
  rw [isNumberChar, h]
  rfl

/-- **Digits with a point among them** stand for the digits divided by the power of the fraction. -/
theorem isDecimal_pointed {text : String} (htext : text.toList = whole ++ '.' :: fraction)
    (hne : whole ≠ []) (hwhole : ∀ c ∈ whole, c.isDigit = true)
    (hfraction : ∀ c ∈ fraction, c.isDigit = true) :
    IsDecimal text (decimal (digitsValue (whole ++ fraction)) (-fraction.length)) := by
  refine ⟨fun c hc => ?_, ?_, Or.inl (by simp [htext]), ?_⟩
  · rw [htext, List.mem_append, List.mem_cons] at hc
    rcases hc with hc | rfl | hc
    · exact isNumberChar_of_isDigit (hwhole c hc)
    · decide
    · exact isNumberChar_of_isDigit (hfraction c hc)
  · obtain ⟨c, cs, rfl⟩ := List.exists_cons_of_ne_nil hne
    rw [htext]
    exact hwhole c List.mem_cons_self
  · have hnot : 'e' ∉ whole ++ '.' :: fraction := by
      simp [notMem_of_digits hwhole (c := 'e') (by decide),
        notMem_of_digits hfraction (c := 'e') (by decide)]
    rw [htext, textValue, Text.cutChars_eq_none hnot]
    dsimp only
    rw [pointedValue_append hwhole, zero_sub]

/-- **Digits in their places stand for themselves.** -/
theorem inPlaces_isDecimal (hne : digits ≠ []) (h : ∀ c ∈ digits, c.isDigit = true) (e : Int) :
    IsDecimal (inPlaces ".0" digits e) (decimal (digitsValue digits) e) := by
  have hzeros : ∀ n, ∀ c ∈ List.replicate n '0', c.isDigit = true := by
    intro n c hc
    rw [List.eq_of_mem_replicate hc]
    decide
  have happend : ∀ {cs ds : List Char}, (∀ c ∈ cs, c.isDigit = true) →
      (∀ c ∈ ds, c.isDigit = true) → ∀ c ∈ cs ++ ds, c.isDigit = true := fun hcs hds c hc =>
    (List.mem_append.mp hc).elim (hcs c) (hds c)
  unfold inPlaces
  split
  · rename_i he
    -- the digits end left of the point
    have htext : (String.ofList (digits ++ List.replicate e.toNat '0') ++ ".0").toList =
        (digits ++ List.replicate e.toNat '0') ++ '.' :: ['0'] := by
      simp
    have hd := isDecimal_pointed htext (by simp [hne]) (happend h (hzeros _)) (by simp)
    have hvalue := decimal_append_zeros digits (e.toNat + 1) (-1)
    rw [List.replicate_succ', ← List.append_assoc,
      show (-1 : Int) + ((e.toNat + 1 : Nat) : Int) = e by omega] at hvalue
    rw [← hvalue]
    exact hd
  · rename_i he
    dsimp only
    split
    · rename_i hplaces
      -- the point stands among the digits
      have htext : (String.ofList (digits.take (digits.length - (-e).toNat)) ++ "." ++
          String.ofList (digits.drop (digits.length - (-e).toNat))).toList =
          digits.take (digits.length - (-e).toNat) ++
            '.' :: digits.drop (digits.length - (-e).toNat) := by
        simp
      have hwhole : digits.take (digits.length - (-e).toNat) ≠ [] := by
        rw [← List.length_pos_iff, List.length_take]
        omega
      have hd := isDecimal_pointed htext hwhole (fun c hc => h c (List.mem_of_mem_take hc))
        fun c hc => h c (List.mem_of_mem_drop hc)
      rw [List.take_append_drop, List.length_drop] at hd
      rw [show -((digits.length - (digits.length - (-e).toNat) : Nat) : Int) = e by omega] at hd
      exact hd
    · rename_i hplaces
      -- the digits begin right of the point
      have htext : ("0." ++ String.ofList
          (List.replicate ((-e).toNat - digits.length) '0' ++ digits)).toList =
          ['0'] ++ '.' :: (List.replicate ((-e).toNat - digits.length) '0' ++ digits) := by
        simp
      have hd := isDecimal_pointed htext (by simp) (by simp) (happend (hzeros _) h)
      rw [← List.append_assoc, show ['0'] ++ List.replicate ((-e).toNat - digits.length) '0' =
        List.replicate ((-e).toNat - digits.length + 1) '0' from rfl,
        digitsValue_zeros_append] at hd
      rw [List.length_append, List.length_replicate,
        show -(((-e).toNat - digits.length + digits.length : Nat) : Int) = e by omega] at hd
      exact hd

/-- The digits before an exponent, with a point after the first if there are more. -/
theorem pointedValue_mantissa {c : Char} {cs : List Char} (h : ∀ d ∈ c :: cs, d.isDigit = true)
    (power : Int) : pointedValue ([c] ++ if cs.isEmpty then [] else '.' :: cs) power =
      decimal (digitsValue (c :: cs)) (power - cs.length) := by
  cases cs with
  | nil =>
    rw [List.length_nil, Int.natCast_zero, sub_zero]
    exact pointedValue_digits h power
  | cons d ds =>
    have hfirst : ∀ e ∈ [c], e.isDigit = true := fun e he =>
      h e (List.mem_singleton.mp he ▸ List.mem_cons_self)
    exact pointedValue_append hfirst power

theorem powerValue_sign (e : Int) :
    powerValue ((if e < 0 then '-' else '+') :: Nat.toDigits 10 e.natAbs) = e := by
  split
  · rw [powerValue, digitsValue_toDigits]
    omega
  · rw [powerValue, digitsValue_toDigits]
    omega

theorem withExponent_toList (c : Char) (cs : List Char) (e : Int) :
    (withExponent (c :: cs) e).toList = ([c] ++ if cs.isEmpty then [] else '.' :: cs) ++
      'e' :: (if e < 0 then '-' else '+') :: Nat.toDigits 10 e.natAbs := by
  unfold withExponent
  dsimp only
  rw [List.drop_succ_cons, List.drop_zero, List.take_succ_cons, List.take_zero]
  split <;> split <;> simp [Nat.toList_repr, Nat.toString_eq_repr]

/-- **Digits with an exponent stand for themselves.** -/
theorem withExponent_isDecimal (hne : digits ≠ []) (h : ∀ c ∈ digits, c.isDigit = true)
    (first : Int) : IsDecimal (withExponent digits first)
      (decimal (digitsValue digits) (first - digits.length + 1)) := by
  obtain ⟨c, cs, rfl⟩ := List.exists_cons_of_ne_nil hne
  have hpower : ∀ d ∈ Nat.toDigits 10 first.natAbs, d.isDigit = true := fun d hd =>
    Nat.isDigit_of_mem_toDigits (by decide) (by decide) hd
  -- before the `e` there are digits, and at most one point
  have hmantissa : ∀ d ∈ [c] ++ (if cs.isEmpty then [] else '.' :: cs),
      d.isDigit = true ∨ d = '.' := by
    intro d hd
    rcases List.mem_append.mp hd with hd | hd
    · exact Or.inl (h d (List.mem_singleton.mp hd ▸ List.mem_cons_self))
    · split at hd
      · exact absurd hd List.not_mem_nil
      · exact (List.mem_cons.mp hd).symm.imp_left fun hd => h d (List.mem_cons_of_mem c hd)
  refine ⟨fun d hd => ?_, ?_, Or.inr (by simp [withExponent_toList]), ?_⟩
  · rw [withExponent_toList, List.mem_append, List.mem_cons, List.mem_cons] at hd
    rcases hd with hd | rfl | hd | hd
    · rcases hmantissa d hd with hd | rfl
      · exact isNumberChar_of_isDigit hd
      · decide
    · decide
    · rw [hd]
      split <;> decide
    · exact isNumberChar_of_isDigit (hpower d hd)
  · rw [withExponent_toList]
    exact h c List.mem_cons_self
  · -- so the text is cut at the `e` of the exponent
    have hnot : 'e' ∉ [c] ++ (if cs.isEmpty then [] else '.' :: cs) := fun hd =>
      absurd (hmantissa 'e' hd) (by decide)
    rw [withExponent_toList, textValue, Text.cutChars_append hnot]
    dsimp only
    rw [powerValue_sign, pointedValue_mantissa h, List.length_cons]
    congr 1
    omega

/-! ## The text of a number -/

/-- The zeros at the end of digits are counted. -/
theorem dropZeros_append (digits : List Char) :
    (dropZeros digits).1 ++ List.replicate (dropZeros digits).2 '0' = digits := by
  have hsplit := List.takeWhile_append_dropWhile (p := fun c => c = '0') (l := digits.reverse)
  have hall := List.all_takeWhile (p := fun c => decide (c = '0')) (l := digits.reverse)
  unfold dropZeros
  dsimp only
  generalize digits.reverse.takeWhile (fun c => c = '0') = zeros at *
  generalize digits.reverse.dropWhile (fun c => c = '0') = rest at *
  have hzeros : List.replicate zeros.length '0' = zeros.reverse := by
    rw [← List.reverse_replicate]
    congr 1
    refine (List.eq_replicate_iff.mpr ⟨rfl, fun c hc => ?_⟩).symm
    simpa using List.all_eq_true.mp hall c hc
  have hdigits : digits = rest.reverse ++ zeros.reverse := by
    rw [← List.reverse_append, hsplit, List.reverse_reverse]
  rw [hzeros, hdigits]
  congr 1
  simp

theorem middleAt_pos (k : Nat) : 0 < middleAt k := by
  have hvalue : 0 ≤ valueAt k := mul_nonneg (Nat.cast_nonneg _) (gapAt_pos k).le
  have hgap := gapAt_pos k
  unfold middleAt
  linarith

/-- The shortest decimal of a number, laid out. -/
theorem shortest_isDecimal {k : Nat} (h : x.magnitude = k + 1) : ∃ v, Rounds k v ∧
    let (digits, zeros) := dropZeros (Nat.toDigits 10 x.shortest.1)
    ∀ positional : Int → Bool,
      let first := x.shortest.2 + zeros + digits.length - 1
      IsDecimal (if positional first then inPlaces ".0" digits (x.shortest.2 + zeros)
        else withExponent digits first) v := by
  have hrounds := (readsBack_iff h).mp (shortest_readsBack h)
  generalize x.shortest.1 = d at *
  generalize x.shortest.2 = e at *
  have hdigits := dropZeros_append (Nat.toDigits 10 d)
  have hvalue := digitsValue_toDigits d
  have hall : ∀ c ∈ Nat.toDigits 10 d, c.isDigit = true := fun c hc =>
    Nat.isDigit_of_mem_toDigits (by decide) (by decide) hc
  generalize dropZeros (Nat.toDigits 10 d) = kept at *
  obtain ⟨digits, zeros⟩ := kept
  rw [← hdigits] at hvalue hall
  rw [← hvalue, decimal_append_zeros] at hrounds
  have hdigit : ∀ c ∈ digits, c.isDigit = true := fun c hc => hall c (List.mem_append_left _ hc)
  -- something is left when the zeros are dropped: zero would not read back as the number
  have hne : digits ≠ [] := by
    rintro rfl
    have hzero : decimal (digitsValue []) (e + zeros) = 0 := by simp [decimal, digitsValue]
    rw [hzero] at hrounds
    exact absurd hrounds.low (not_le.mpr (middleAt_pos k))
  refine ⟨_, hrounds, fun positional => ?_⟩
  dsimp only
  split
  · exact inPlaces_isDecimal hne hdigit _
  · have hd := withExponent_isDecimal hne hdigit (e + zeros + digits.length - 1)
    rw [show e + (zeros : Int) + digits.length - 1 - digits.length + 1 = e + zeros by omega] at hd
    exact hd

/-- **What the text of a finite number stands for** is a decimal that reads back as the number. -/
theorem documentText_cases (h : x.isFinite = true) : ∃ text v,
    x.documentText = (if x.negative then "-" else "") ++ text ∧ IsDecimal text v ∧
      (x.magnitude = 0 ∧ v = 0 ∨ ∃ k, x.magnitude = k + 1 ∧ Rounds k v) := by
  have hlt : x.magnitude < infinite := by simpa [isFinite] using h
  have hnan : ¬x.isNaN = true := by
    simp only [isNaN, decide_eq_true_eq]
    omega
  have hinf : ¬x.isInfinite = true := by
    simp only [isInfinite, beq_iff_eq]
    omega
  -- the program tests the significand for zero, here it is the magnitude
  have hsig : x.significand = 0 ↔ x.magnitude = 0 := by
    rw [significand_eq]
    refine ⟨fun h0 => ?_, fun h0 => by rw [h0]; rfl⟩
    by_contra hne
    exact absurd h0 (significandAt_pos hne).ne'
  rw [documentText, render, if_neg hnan, if_neg hinf]
  cases hm : x.magnitude with
  | zero =>
    rw [if_pos (hsig.mpr hm)]
    refine ⟨"0" ++ ".0", 0, String.append_assoc ..,
      ⟨List.all_eq_true.mp (by decide), by decide, by decide, ?_⟩, Or.inl ⟨rfl, rfl⟩⟩
    simp [textValue, pointedValue, decimal, digitsValue, Text.cutChars]
  | succ k =>
    rw [if_neg fun h0 => absurd (hsig.mp h0) (by omega)]
    obtain ⟨v, hrounds, hdecimal⟩ := shortest_isDecimal hm
    exact ⟨_, v, rfl, hdecimal _, Or.inr ⟨k, rfl, hrounds⟩⟩

/-- A number is told by its sign and its magnitude. -/
theorem eq_of_magnitude_eq (hsign : x.negative = y.negative) (h : x.magnitude = y.magnitude) :
    x = y := by
  have hx := x.bits.toNat_lt
  have hy := y.bits.toNat_lt
  unfold negative magnitude at *
  rw [twoPow_eq] at *
  rw [decide_eq_decide] at hsign
  have hbits : x.bits.toNat = y.bits.toNat := by omega
  cases x
  cases y
  exact congrArg Double.mk (UInt64.toNat_inj.mp hbits)

/-- A text without sign does not begin with one. -/
theorem IsDecimal.sign_inj {s t : String} {u v : ℚ} {a b : Bool} (hs : IsDecimal s u)
    (ht : IsDecimal t v) (h : (if a then "-" else "") ++ s = (if b then "-" else "") ++ t) :
    a = b ∧ s = t := by
  have hhead : ∀ {s : String} {u : ℚ}, IsDecimal s u → ∀ rest, "-" ++ rest ≠ s := by
    rintro s u hs rest rfl
    exact absurd hs.head (by simp)
  cases a <;> cases b
  · exact ⟨rfl, by simpa using h⟩
  · exact absurd (by simpa using h.symm) (hhead hs t)
  · exact absurd (by simpa using h) (hhead ht s)
  · exact ⟨rfl, by simpa using h⟩

/-- **Finite numbers with one text are the same.** -/
theorem eq_of_documentText_eq (hx : x.isFinite = true) (hy : y.isFinite = true)
    (h : x.documentText = y.documentText) : x = y := by
  obtain ⟨s, u, hxtext, hs, hu⟩ := documentText_cases hx
  obtain ⟨t, v, hytext, ht, hv⟩ := documentText_cases hy
  rw [hxtext, hytext] at h
  obtain ⟨hsign, rfl⟩ := hs.sign_inj ht h
  obtain rfl : u = v := hs.value.symm.trans ht.value
  have hzero : ∀ k, ¬Rounds k 0 := fun k hr => absurd hr.low (not_le.mpr (middleAt_pos k))
  refine eq_of_magnitude_eq hsign ?_
  rcases hu with ⟨hu, rfl⟩ | ⟨k, hu, hk⟩
  · rcases hv with ⟨hv, -⟩ | ⟨k, -, hk⟩
    · rw [hu, hv]
    · exact absurd hk (hzero k)
  · rcases hv with ⟨-, rfl⟩ | ⟨k', hv, hk'⟩
    · exact absurd hk (hzero k)
    · rw [hu, hv, hk.unique hk']

end Double

namespace Number

/-- The number is no infinity and not the number that stands for no number. -/
def IsFinite : Number → Prop
  | .int _ => True
  | .float x => x.isFinite = true

instance : DecidablePred IsFinite
  | .int _ => .isTrue trivial
  | .float x => inferInstanceAs (Decidable (x.isFinite = true))

variable {a b : Number}

theorem mem_int_text {i : Int} {c : Char} (hc : c ∈ (Number.int i).text.toList) :
    c = '-' ∨ c.isDigit = true := by
  have hnat : ∀ {m : Nat}, c ∈ m.repr.toList → c.isDigit = true := fun {m} hc => by
    rw [Nat.toList_repr] at hc
    exact Nat.isDigit_of_mem_toDigits (by decide) (by decide) hc
  change c ∈ (Int.repr i).toList at hc
  cases i with
  | ofNat m => exact Or.inr (hnat hc)
  | negSucc m =>
    rw [Int.repr, String.toList_append, List.mem_append] at hc
    exact hc.imp (fun hc => by simpa using hc) hnat

theorem float_text {x : Double} (h : x.isFinite = true) : ∃ text v,
    (Number.float x).text = (if x.negative then "-" else "") ++ text ∧ Double.IsDecimal text v :=
  let ⟨text, v, heq, hdecimal, _⟩ := Double.documentText_cases h
  ⟨text, v, heq, hdecimal⟩

/-- **The text of a finite number** is made of digits, signs, `.` and `e`. -/
theorem isNumberChar_of_mem_text (h : a.IsFinite) {c : Char} (hc : c ∈ a.text.toList) :
    Double.isNumberChar c = true := by
  cases a with
  | int i =>
    rcases mem_int_text hc with rfl | hc
    · decide
    · exact Double.isNumberChar_of_isDigit hc
  | float x =>
    obtain ⟨text, v, heq, hdecimal⟩ := float_text h
    rw [heq, String.toList_append, List.mem_append] at hc
    rcases hc with hc | hc
    · split at hc
      · rw [show c = '-' by simpa using hc]
        decide
      · simp at hc
    · exact hdecimal.chars c hc

/-- The text of a number that is not finite is a word. -/
theorem mem_text_of_not_isFinite (h : ¬a.IsFinite) {c : Char} (hc : c ∈ a.text.toList) :
    c ∈ "-NaNinf".toList := by
  cases a with
  | int i => exact absurd trivial h
  | float x =>
    have hle : Double.infinite ≤ x.magnitude := by
      simpa [IsFinite, Double.isFinite] using h
    have hnan : ∀ d ∈ "NaN".toList, d ∈ "-NaNinf".toList := by simp
    have hinf : ∀ sign : Bool, ∀ d ∈ ((if sign then "-" else "") ++ "inf").toList,
        d ∈ "-NaNinf".toList := by
      rintro (_ | _) <;> simp
    change c ∈ (Double.render .document x).toList at hc
    unfold Double.render at hc
    dsimp only at hc
    split at hc
    · exact hnan c hc
    · rename_i hnumber
      -- not finite and still a number: infinite
      rw [if_pos ?_] at hc
      · exact hinf _ c hc
      · simp only [Double.isNaN, decide_eq_true_eq] at hnumber
        simp only [Double.isInfinite, beq_iff_eq]
        omega

/-- **What no text of a number holds.** -/
theorem notMem_text {c : Char} (hnumber : Double.isNumberChar c = false)
    (hword : c ∉ "-NaNinf".toList) (a : Number) : c ∉ a.text.toList := by
  intro hc
  by_cases h : a.IsFinite
  · rw [isNumberChar_of_mem_text h hc] at hnumber
    exact absurd hnumber (by decide)
  · exact hword (mem_text_of_not_isFinite h hc)

theorem text_ne_nil (h : a.IsFinite) : a.text.toList ≠ [] := by
  cases a with
  | int i =>
    change (Int.repr i).toList ≠ []
    cases i with
    | ofNat m =>
      rw [Int.repr, Nat.toList_repr]
      exact Nat.toDigits_ne_nil
    | negSucc m => simp [Int.repr]
  | float x =>
    obtain ⟨text, v, heq, hdecimal⟩ := float_text h
    rw [heq, String.toList_append]
    intro hnil
    have hhead := hdecimal.head
    rw [(List.append_eq_nil_iff.mp hnil).2] at hhead
    exact absurd hhead (by decide)

/-- An integer has neither a point nor an exponent, and every other number has one. -/
theorem int_text_ne_float_text {i : Int} {x : Double} (h : x.isFinite = true) :
    (Number.int i).text ≠ (Number.float x).text := by
  intro hsame
  obtain ⟨text, v, heq, hdecimal⟩ := float_text h
  have hmem : ∀ {c : Char}, c ∈ text.toList → c = '-' ∨ c.isDigit = true := fun {c} hc => by
    refine mem_int_text (i := i) ?_
    rw [hsame, heq, String.toList_append]
    exact List.mem_append_right _ hc
  rcases hdecimal.marked with hc | hc
  · exact absurd (hmem hc) (by decide)
  · exact absurd (hmem hc) (by decide)

/-- **Finite numbers with one text are the same.** -/
theorem eq_of_text_eq (ha : a.IsFinite) (hb : b.IsFinite) (h : a.text = b.text) : a = b := by
  cases a with
  | int i =>
    cases b with
    | int j => rw [Int.repr_inj.mp h]
    | float y => exact absurd h (int_text_ne_float_text hb)
  | float x =>
    cases b with
    | int j => exact absurd h.symm (int_text_ne_float_text ha)
    | float y => rw [Double.eq_of_documentText_eq ha hb h]

end Number

end KclModels
