import OneBarrier.Lib.Text

/-!
# Decimal numerals on the wire

What the parsers of `Text` make of a numeral in ASCII digits, and of one that is cut short: the value
of a part is at most the value of the whole. A number that is printed is parsed back.
-/

namespace Text

open Wire Utf8

def isDigit (byte : UInt8) : Bool := 48 ≤ byte && byte ≤ 57

def digitChar (byte : UInt8) : Char := Char.ofNat byte.toNat

/-- The value of a run of digits; the empty run counts as zero. -/
def number (text : Bytes) : Nat := text.foldl (fun value byte => value * 10 + (byte.toNat - 48)) 0

/-- `text` is a numeral of `value`. Leading zeros are allowed. -/
structure Decimal (text : Bytes) (value : Nat) : Prop where
  nonempty : text ≠ []
  digits : text.all isDigit
  value_eq : number text = value

theorem isDigit_iff {byte : UInt8} : isDigit byte = true ↔ 48 ≤ byte.toNat ∧ byte.toNat ≤ 57 := by
  simp [isDigit, UInt8.le_iff_toNat_le]

theorem toNat_digitChar {byte : UInt8} (hbyte : isDigit byte = true) :
    (digitChar byte).toNat = byte.toNat := by
  have hbound := isDigit_iff.mp hbyte
  have hvalid : byte.toNat.isValidChar := .inl (by omega)
  rw [digitChar, Char.ofNat, dif_pos hvalid]
  rfl

theorem foldl_digitChar {text : Bytes} (htext : text.all isDigit) (start : Nat) :
    (text.map digitChar).foldl (fun value char => value * 10 + (char.toNat - '0'.toNat)) start
      = text.foldl (fun value byte => value * 10 + (byte.toNat - 48)) start := by
  induction text generalizing start with
  | nil => rfl
  | cons byte text ih =>
      rw [List.all_cons, Bool.and_eq_true] at htext
      rw [List.map_cons, List.foldl_cons, List.foldl_cons, toNat_digitChar htext.1]
      exact ih htext.2 _

theorem fromUtf8_digits {text : Bytes} (htext : text.all isDigit) :
    fromUtf8 text = some (String.ofList (text.map digitChar)) := by
  have hscan : scan text = (text.map digitChar).map some := by
    induction text with
    | nil => rfl
    | cons byte text ih =>
        rw [List.all_cons, Bool.and_eq_true] at htext
        have hbound := isDigit_iff.mp htext.1
        rw [scan_cons, next_one (by omega), ih htext.2]
        rfl
  rw [fromUtf8, hscan, mapM_id_map_some, Option.map_some]

theorem parseDigits_digits {text : Bytes} (htext : text.all isDigit) (hnonempty : text ≠ []) :
    parseDigits (text.map digitChar) = some (number text) := by
  have hall : (text.map digitChar).all Char.isDigit = true := by
    rw [List.all_map, List.all_eq_true]
    intro byte hmem
    have hbyte := List.all_eq_true.mp htext byte hmem
    have hbound := isDigit_iff.mp hbyte
    simp only [Function.comp_apply, Char.isDigit, Bool.and_eq_true, decide_eq_true_eq,
      UInt32.le_iff_toNat_le, ge_iff_le]
    have hnat : (digitChar byte).val.toNat = byte.toNat := toNat_digitChar hbyte
    rw [hnat]
    exact hbound
  rw [parseDigits, if_pos ⟨by simpa using hnonempty, hall⟩, foldl_digitChar htext]
  rfl

theorem ne_sign {byte : UInt8} (hbyte : isDigit byte = true) :
    digitChar byte ≠ '-' ∧ digitChar byte ≠ '+' := by
  have hbound := isDigit_iff.mp hbyte
  have hnat := toNat_digitChar hbyte
  constructor
  · intro hchar
    rw [hchar] at hnat
    change 45 = _ at hnat
    omega
  · intro hchar
    rw [hchar] at hnat
    change 43 = _ at hnat
    omega

theorem isWhitespace_digitChar {byte : UInt8} (hbyte : isDigit byte = true) :
    isWhitespace (digitChar byte) = false := by
  have hbound := isDigit_iff.mp hbyte
  simp only [isWhitespace, toNat_digitChar hbyte]
  grind

theorem parseI64_digits {text : Bytes} (htext : text.all isDigit) (hnonempty : text ≠ []) :
    parseI64 (text.map digitChar)
      = if number text < 2 ^ 63 then some (Int64.ofInt (number text)) else none := by
  have hparse := parseDigits_digits htext hnonempty
  cases text with
  | nil => exact absurd rfl hnonempty
  | cons byte text =>
      have hsign := ne_sign (List.all_eq_true.mp htext byte List.mem_cons_self)
      rw [List.map_cons] at hparse ⊢
      unfold parseI64
      split
      · rename_i hcons
        exact absurd (List.cons.inj hcons).1 hsign.1
      · rename_i hcons
        exact absurd (List.cons.inj hcons).1 hsign.2
      · rw [hparse, Option.bind_some]

theorem parseUsize_digits {text : Bytes} (htext : text.all isDigit) (hnonempty : text ≠ []) :
    parseUsize (text.map digitChar)
      = if number text < 2 ^ 64 then some (number text) else none := by
  have hparse := parseDigits_digits htext hnonempty
  cases text with
  | nil => exact absurd rfl hnonempty
  | cons byte text =>
      have hsign := ne_sign (List.all_eq_true.mp htext byte List.mem_cons_self)
      rw [List.map_cons] at hparse ⊢
      unfold parseUsize
      split
      · rename_i hcons
        exact absurd (List.cons.inj hcons).1 hsign.2
      · dsimp only
        rw [hparse, Option.bind_some]

theorem trim_of_forall {text : List Char} (htext : ∀ char ∈ text, isWhitespace char = false) :
    trim text = text := by
  have hkeep : ∀ chars : List Char, (∀ char ∈ chars, isWhitespace char = false) →
      chars.dropWhile isWhitespace = chars := by
    intro chars hchars
    cases chars with
    | nil => rfl
    | cons char chars => rw [List.dropWhile_cons_of_neg (by simp [hchars char List.mem_cons_self])]
  rw [trim, hkeep _ htext, trimEnd, hkeep _ fun char hmem => htext char (List.mem_reverse.mp hmem),
    List.reverse_reverse]

theorem trim_digits {text : Bytes} (htext : text.all isDigit) :
    trim (text.map digitChar) = text.map digitChar := by
  refine trim_of_forall fun char hmem => ?_
  obtain ⟨byte, hbyte, rfl⟩ := List.mem_map.mp hmem
  exact isWhitespace_digitChar (List.all_eq_true.mp htext byte hbyte)

/-- Cutting a numeral short does not make it larger. -/
theorem number_le_append (first second : Bytes) : number first ≤ number (first ++ second) := by
  have hgrow : ∀ (text : Bytes) (start : Nat),
      start ≤ text.foldl (fun value byte => value * 10 + (byte.toNat - 48)) start := by
    intro text
    induction text with
    | nil => exact fun start => Nat.le_refl start
    | cons byte text ih =>
        intro start
        exact Nat.le_trans (by omega) (ih (start * 10 + (byte.toNat - 48)))
  rw [number, number, List.foldl_append]
  exact hgrow second _

/-! ### Printed numbers -/

theorem parseDigits_toDigits (value : Nat) : parseDigits (Nat.toDigits 10 value) = some value := by
  have hdigits : (Nat.toDigits 10 value).all Char.isDigit = true := by
    rw [List.all_eq_true]
    exact fun char hchar => Nat.isDigit_of_mem_toDigits (by decide) (by decide) hchar
  have hstep : (fun (value : Nat) (char : Char) => value * 10 + (char.toNat - '0'.toNat))
      = fun value char => 10 * value + (char.toNat - '0'.toNat) := by
    funext value char
    rw [Nat.mul_comm]
  rw [parseDigits, if_pos ⟨Nat.toDigits_ne_nil, hdigits⟩, hstep, ← Nat.ofDigitChars_eq_foldl,
    Nat.ofDigitChars_toDigits (by decide) (by decide)]

theorem toList_toString_nat (value : Nat) : (toString value).toList = Nat.toDigits 10 value :=
  Nat.toList_repr

/-- The bytes of a printed number, its last digit apart. -/
theorem asBytes_toString (value : Nat) :
    asBytes (toString value) = if value < 10 then [UInt8.ofNat (48 + value)]
      else asBytes (toString (value / 10)) ++ [UInt8.ofNat (48 + value % 10)] := by
  have hdigit : ∀ digit < 10, String.utf8EncodeChar (Nat.digitChar digit) = [UInt8.ofNat (48 + digit)] := by
    decide
  rw [asBytes, toList_toString_nat, Nat.toDigits_eq_if (by decide)]
  split
  · rw [List.flatMap_singleton, hdigit value ‹_›]
  · rw [List.flatMap_append, List.flatMap_singleton, hdigit _ (Nat.mod_lt value (by decide)), asBytes,
      toList_toString_nat]

theorem number_append (text : Bytes) (byte : UInt8) :
    number (text ++ [byte]) = number text * 10 + (byte.toNat - 48) := by
  rw [number, List.foldl_append]
  rfl

theorem decimal_toString (value : Nat) : Decimal (asBytes (toString value)) value := by
  induction value using Nat.strongRecOn with
  | ind value ih =>
      rw [asBytes_toString]
      split
      · rename_i hsmall
        have htoNat : (UInt8.ofNat (48 + value)).toNat = 48 + value := toNat_ofNat_of_lt (by omega)
        refine ⟨List.cons_ne_nil _ _, ?_, ?_⟩
        · rw [List.all_cons, List.all_nil, Bool.and_true, isDigit_iff, htoNat]
          omega
        · rw [← List.nil_append [_], number_append, htoNat]
          change 0 * 10 + _ = _
          omega
      · rename_i hlarge
        have hbefore := ih (value / 10) (by omega)
        have htoNat : (UInt8.ofNat (48 + value % 10)).toNat = 48 + value % 10 :=
          toNat_ofNat_of_lt (by omega)
        refine ⟨by simp, ?_, ?_⟩
        · rw [List.all_append, hbefore.digits, List.all_cons, List.all_nil, Bool.and_true, Bool.true_and,
            isDigit_iff, htoNat]
          omega
        · rw [number_append, hbefore.value_eq, htoNat]
          omega

/-- A printed number other than zero has no leading zero. -/
theorem head?_asBytes_toString {value : Nat} (hvalue : value ≠ 0) :
    (asBytes (toString value)).head? ≠ some 48 := by
  induction value using Nat.strongRecOn with
  | ind value ih =>
      rw [asBytes_toString]
      split
      · rename_i hsmall
        intro hzero
        have htoNat := congrArg UInt8.toNat (Option.some.inj hzero)
        rw [toNat_ofNat_of_lt (by omega)] at htoNat
        change 48 + value = 48 at htoNat
        omega
      · rw [List.head?_append_of_ne_nil _ (decimal_toString _).nonempty]
        exact ih (value / 10) (by omega) (by omega)

theorem toList_toString_neg (value : Nat) (hvalue : 0 < value) :
    (toString (-(value : Int))).toList = '-' :: Nat.toDigits 10 value := by
  obtain ⟨value, rfl⟩ := Nat.exists_eq_succ_of_ne_zero (Nat.ne_of_gt hvalue)
  change (Int.negSucc value).repr.toList = _
  simp [Int.repr]

theorem showI64_cases (value : Int64) :
    (0 ≤ value.toInt ∧ (showI64 value).toList = Nat.toDigits 10 value.toInt.toNat) ∨
      (value.toInt < 0 ∧ (showI64 value).toList = '-' :: Nat.toDigits 10 (-value.toInt).toNat) := by
  rw [showI64]
  by_cases hsign : 0 ≤ value.toInt
  · refine .inl ⟨hsign, ?_⟩
    obtain ⟨nat, hnat⟩ := Int.eq_ofNat_of_zero_le hsign
    rw [hnat]
    exact toList_toString_nat nat
  · refine .inr ⟨by omega, ?_⟩
    obtain ⟨nat, hnat⟩ := Int.eq_ofNat_of_zero_le (show 0 ≤ -value.toInt by omega)
    have hvalue : value.toInt = -(nat : Int) := by omega
    rw [hvalue, toList_toString_neg nat (by omega)]
    simp

theorem toDigits_cons (value : Nat) : ∃ char chars, Nat.toDigits 10 value = char :: chars
    ∧ char ≠ '-' ∧ char ≠ '+' := by
  obtain ⟨char, chars, hchars⟩ := List.exists_cons_of_ne_nil (Nat.toDigits_ne_nil (n := value) (b := 10))
  have hdigit : char.isDigit = true :=
    Nat.isDigit_of_mem_toDigits (by decide) (by decide) (hchars ▸ List.mem_cons_self)
  refine ⟨char, chars, hchars, ?_, ?_⟩ <;> rintro rfl <;> exact absurd hdigit (by decide)

@[simp]
theorem parseI64_showI64 (value : Int64) : parseI64 (showI64 value).toList = some value := by
  obtain ⟨hsign, hshow⟩ | ⟨hsign, hshow⟩ := showI64_cases value
  · have hbound := value.toInt_lt
    have hparse := parseDigits_toDigits value.toInt.toNat
    obtain ⟨char, chars, hchars, hminus, hplus⟩ := toDigits_cons value.toInt.toNat
    rw [hshow]
    rw [hchars] at hparse ⊢
    rw [parseI64]
    · rw [hparse, Option.bind_some, if_pos (by omega), Int.toNat_of_nonneg hsign, Int64.ofInt_toInt]
    · exact fun digits heq => hminus (List.cons.inj heq).1
    · exact fun digits heq => hplus (List.cons.inj heq).1
  · have hbound := value.le_toInt
    have hnat : (((-value.toInt).toNat : Nat) : Int) = -value.toInt := by omega
    rw [hshow, parseI64, parseDigits_toDigits, Option.bind_some, if_pos (by omega), hnat, Int.neg_neg,
      Int64.ofInt_toInt]

/-- A printed number is digits, with a sign perhaps. -/
theorem mem_showI64 {value : Int64} {char : Char} (hchar : char ∈ (showI64 value).toList) :
    char.isDigit = true ∨ char = '-' := by
  obtain ⟨-, hshow⟩ | ⟨-, hshow⟩ := showI64_cases value
  · rw [hshow] at hchar
    exact .inl (Nat.isDigit_of_mem_toDigits (by decide) (by decide) hchar)
  · rw [hshow, List.mem_cons] at hchar
    obtain rfl | hdigit := hchar
    · exact .inr rfl
    · exact .inl (Nat.isDigit_of_mem_toDigits (by decide) (by decide) hdigit)

theorem trim_showI64 (value : Int64) : trim (showI64 value).toList = (showI64 value).toList := by
  refine trim_of_forall fun char hchar => ?_
  obtain hdigit | rfl := mem_showI64 hchar
  · rw [Char.isDigit, Bool.and_eq_true] at hdigit
    have hlow : 48 ≤ char.toNat := by simpa [UInt32.le_iff_toNat_le] using hdigit.1
    have hhigh : char.toNat ≤ 57 := by simpa [UInt32.le_iff_toNat_le] using hdigit.2
    simp only [isWhitespace]
    grind
  · decide

/-! ### Sizes -/

theorem length_asBytes_le_chars (text : String) : (asBytes text).length ≤ 4 * text.toList.length := by
  rw [asBytes]
  induction text.toList with
  | nil => exact Nat.le_refl 0
  | cons char chars ih =>
      have hchar := char.utf8Size_le_four
      rw [List.flatMap_cons, List.length_append, String.length_utf8EncodeChar, List.length_cons]
      omega

theorem length_asBytes_showI64 (value : Int64) : (asBytes (showI64 value)).length ≤ 80 := by
  have hlow := value.le_toInt
  have hhigh := value.toInt_lt
  have hchars : (showI64 value).toList.length ≤ 20 := by
    obtain ⟨hsign, hshow⟩ | ⟨hsign, hshow⟩ := showI64_cases value
    · have hdigits : (Nat.toDigits 10 value.toInt.toNat).length ≤ 19 :=
        (Nat.length_toDigits_le_iff (by decide) (by decide)).mpr (by omega)
      rw [hshow]
      omega
    · have hdigits : (Nat.toDigits 10 (-value.toInt).toNat).length ≤ 19 :=
        (Nat.length_toDigits_le_iff (by decide) (by decide)).mpr (by omega)
      rw [hshow, List.length_cons]
      omega
  have hbytes := length_asBytes_le_chars (showI64 value)
  omega

end Text
