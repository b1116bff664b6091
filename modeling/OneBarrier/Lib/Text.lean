import OneBarrier.Lib.Utf8
import Mathlib.Data.List.DropRight

/-!
# Text handling of the Rust standard library

The `str`, `[u8]` and integer-parsing functions the programs here call, with the documented
behaviour: whitespace is Unicode `White_Space` for `str` and ASCII for bytes, integer parsing takes
one optional sign and at least one digit and fails outside the type's range.
-/

namespace Text

open Wire

/-- `char::is_whitespace`: the Unicode `White_Space` property. -/
def isWhitespace (char : Char) : Bool :=
  (9 ≤ char.toNat && char.toNat ≤ 13) || char.toNat = 0x20 || char.toNat = 0x85
    || char.toNat = 0xA0 || char.toNat = 0x1680 || (0x2000 ≤ char.toNat && char.toNat ≤ 0x200A)
    || char.toNat = 0x2028 || char.toNat = 0x2029 || char.toNat = 0x202F || char.toNat = 0x205F
    || char.toNat = 0x3000

/-- `str::trim_end`. -/
def trimEnd (text : List Char) : List Char := (text.reverse.dropWhile isWhitespace).reverse

/-- `str::trim`. -/
def trim (text : List Char) : List Char := trimEnd (text.dropWhile isWhitespace)

/-- The value of a non-empty run of decimal digits. -/
def parseDigits (text : List Char) : Option Nat :=
  if text ≠ [] ∧ text.all Char.isDigit then
    some (text.foldl (fun value char => value * 10 + (char.toNat - '0'.toNat)) 0)
  else none

/-- `str::parse::<i64>`. -/
def parseI64 (text : List Char) : Option Int64 :=
  match text with
  | '-' :: digits =>
      (parseDigits digits).bind fun value =>
        if value ≤ 2 ^ 63 then some (Int64.ofInt (-value)) else none
  | '+' :: digits =>
      (parseDigits digits).bind fun value =>
        if value < 2 ^ 63 then some (Int64.ofInt value) else none
  | digits =>
      (parseDigits digits).bind fun value =>
        if value < 2 ^ 63 then some (Int64.ofInt value) else none

/-- `i64::to_string`. -/
def showI64 (value : Int64) : String := toString value.toInt

/-- `str::parse::<usize>`, on a 64-bit target. -/
def parseUsize (text : List Char) : Option Nat :=
  let digits := match text with
    | '+' :: digits => digits
    | digits => digits
  (parseDigits digits).bind fun value => if value < 2 ^ 64 then some value else none

/-- The non-empty pieces between separators, as `split(..).filter(..)` on bytes and
`split_whitespace` on text give them. -/
def tokens {α : Type} [DecidableEq α] (separator : α → Bool) (text : List α) : List (List α) :=
  (text.splitOnP separator).filter (· ≠ [])

/-- `str::split_once`. -/
def splitOnce (separator : Char) (text : List Char) : Option (List Char × List Char) :=
  if separator ∈ text then
    some (text.takeWhile (· ≠ separator), (text.dropWhile (· ≠ separator)).tail)
  else none

/-- `str::splitn`. -/
def splitN (separator : Char) : Nat → List Char → List (List Char)
  | 0, _ => []
  | 1, text => [text]
  | count + 2, text =>
      match splitOnce separator text with
      | some (head, tail) => head :: splitN separator (count + 1) tail
      | none => [text]

/-- `str::trim_end_matches` of a set of characters. -/
def trimEndMatches (chars : List Char) (text : List Char) : List Char :=
  (text.reverse.dropWhile (· ∈ chars)).reverse

/-- `u8::is_ascii_whitespace`. -/
def isAsciiWhitespace (byte : UInt8) : Bool :=
  byte = 32 || byte = 9 || byte = 10 || byte = 12 || byte = 13

/-- `u8::to_ascii_uppercase`. -/
def asciiUpper (byte : UInt8) : UInt8 := if 97 ≤ byte && byte ≤ 122 then byte - 32 else byte

/-- `u8::to_ascii_lowercase`. -/
def asciiLower (byte : UInt8) : UInt8 := if 65 ≤ byte && byte ≤ 90 then byte + 32 else byte

/-! ### The words of a line cut short -/

section

variable {α : Type} (separator : α → Bool)

theorem splitOnP_append (first second : List α) : ∃ whole last rest more,
    first.splitOnP separator = whole ++ [last] ∧
      (first ++ second).splitOnP separator = whole ++ (last ++ rest) :: more := by
  induction first with
  | nil =>
      obtain ⟨rest, more, hsecond⟩ := List.exists_cons_of_ne_nil
        (List.splitOnP_ne_nil (p := separator) second)
      exact ⟨[], [], rest, more, List.splitOnP_nil, hsecond⟩
  | cons head first ih =>
      obtain ⟨whole, last, rest, more, hfirst, hboth⟩ := ih
      rw [List.cons_append, List.splitOnP_cons_eq_if_modifyHead, List.splitOnP_cons_eq_if_modifyHead,
        hfirst, hboth]
      by_cases hhead : separator head = true
      · rw [if_pos hhead, if_pos hhead]
        exact ⟨[] :: whole, last, rest, more, rfl, rfl⟩
      · rw [if_neg hhead, if_neg hhead]
        cases whole with
        | nil => exact ⟨[], head :: last, rest, more, rfl, rfl⟩
        | cons word whole => exact ⟨(head :: word) :: whole, last, rest, more, rfl, rfl⟩

variable [DecidableEq α]

/-- Every word of a part but its last is a word of the whole, and the last one begins the word in
its place. -/
theorem tokens_append (first second : List α) :
    (∃ more, tokens separator (first ++ second) = tokens separator first ++ more) ∨
      ∃ whole last rest more, tokens separator first = whole ++ [last] ∧
        tokens separator (first ++ second) = whole ++ (last ++ rest) :: more := by
  obtain ⟨whole, last, rest, more, hfirst, hboth⟩ := splitOnP_append separator first second
  rw [tokens, tokens, hfirst, hboth, List.filter_append, List.filter_append]
  by_cases hlast : last = []
  · exact .inl ⟨((last ++ rest) :: more).filter (· ≠ []), by simp [hlast]⟩
  · exact .inr ⟨whole.filter (· ≠ []), last, rest, more.filter (· ≠ []), by simp [hlast]⟩

theorem head?_tokens_append {first second : List α}
    (hlength : 2 ≤ (tokens separator first).length) :
    (tokens separator (first ++ second)).head? = (tokens separator first).head? := by
  obtain ⟨more, hmore⟩ | ⟨whole, last, rest, more, hfirst, hboth⟩ :=
    tokens_append separator first second
  · rw [hmore]
    exact List.head?_append_of_ne_nil _ (List.ne_nil_of_length_pos (by omega))
  · rw [hboth, hfirst]
    cases whole with
    | nil => simp [hfirst] at hlength
    | cons word whole => rfl

theorem getElem?_tokens_append {first second word : List α} {index : Nat}
    (hword : (tokens separator first)[index]? = some word) :
    ∃ rest, (tokens separator (first ++ second))[index]? = some (word ++ rest) := by
  have hindex := (List.getElem?_eq_some_iff.mp hword).1
  obtain ⟨more, hmore⟩ | ⟨whole, last, rest, more, hfirst, hboth⟩ :=
    tokens_append separator first second
  · exact ⟨[], by rw [hmore, List.getElem?_append_left hindex, hword, List.append_nil]⟩
  · rw [hfirst] at hword hindex
    rw [List.length_append, List.length_singleton] at hindex
    by_cases hwhole : index < whole.length
    · rw [List.getElem?_append_left hwhole] at hword
      exact ⟨[], by rw [hboth, List.getElem?_append_left hwhole, hword, List.append_nil]⟩
    · obtain rfl : index = whole.length := by omega
      rw [List.getElem?_concat_length, Option.some_inj] at hword
      refine ⟨rest, ?_⟩
      rw [hboth, hword, List.getElem?_append_right (Nat.le_refl _), Nat.sub_self, List.getElem?_cons_zero]

end

/-! ### Trimming and splitting -/

theorem trimEnd_append_cons (front : List Char) {char : Char} (hchar : isWhitespace char = false)
    (back : List Char) : trimEnd (front ++ char :: back) = front ++ char :: trimEnd back := by
  have hreverse : (front ++ char :: back).reverse = back.reverse ++ char :: front.reverse := by
    simp
  rw [trimEnd, hreverse, List.dropWhile_append]
  split
  · rename_i hempty
    rw [trimEnd, List.isEmpty_iff.mp hempty, List.dropWhile_cons_of_neg (by simp [hchar])]
    simp
  · simp [trimEnd]

theorem trimEnd_append {back : List Char} (hback : ∀ char ∈ back, isWhitespace char = true)
    (front : List Char) : trimEnd (front ++ back) = trimEnd front := by
  have hblank : back.reverse.dropWhile isWhitespace = [] :=
    List.dropWhile_eq_nil_iff.mpr fun char hmem => hback char (List.mem_reverse.mp hmem)
  rw [trimEnd, List.reverse_append, List.dropWhile_append, hblank]
  rfl

end Text
