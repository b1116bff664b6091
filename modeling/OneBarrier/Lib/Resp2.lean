import OneBarrier.Lib.Decimal

/-!
# RESP2 replies

A client's decoder. Simple strings, errors and numbers end at the first CR LF and so cannot contain
one; a bulk string is as long as its header says, and an array has as many items.
-/

namespace Resp2

open Wire Utf8 Text

inductive Value where
  | simple (text : Bytes)
  | error (text : Bytes)
  | int (value : Int64)
  | bulk (value : Option Bytes)
  | array (items : Option (List Value))

/-- Carriage return and newline. -/
def crlf : Bytes := [13, 10]

/-- Up to the first CR LF, which is taken off too. -/
def line : Reader Bytes
  | [] => none
  | byte :: rest =>
      if byte = 13 ∧ rest.head? = some 10 then some ([], rest.tail)
      else (line rest).map fun found => (byte :: found.1, found.2)

def integer (text : Bytes) : Option Int64 := (fromUtf8 text).bind fun text => parseI64 text.toList

def size (text : Bytes) : Option Nat := (fromUtf8 text).bind fun text => parseDigits text.toList

/-- One value, its arrays nested less deep than `depth`. -/
def readValue : Nat → Reader Value
  | 0 => ofOption none
  | depth + 1 => do
      let mark ← u8
      let text ← line
      if mark = 43 then pure (.simple text)
      else if mark = 45 then pure (.error text)
      else if mark = 58 then .int <$> ofOption (integer text)
      else if mark = 36 then
        if text = asBytes "-1" then pure (.bulk none)
        else do
          let length ← ofOption (size text)
          let value ← bytes length
          let stop ← bytes 2
          ofOption (if stop = crlf then some (.bulk (some value)) else none)
      else if mark = 42 then
        if text = asBytes "-1" then pure (.array none)
        else do
          let count ← ofOption (size text)
          let items ← times count (readValue depth)
          pure (.array (some items))
      else ofOption none

/-- One value after the other, up to `fuel` of them. -/
def decodeWith : Nat → Bytes → Option (List Value)
  | _, [] => some []
  | 0, _ :: _ => none
  | fuel + 1, input@(_ :: _) => do
      let (value, rest) ← readValue input.length input
      let values ← decodeWith fuel rest
      pure (value :: values)

/-- The values of a stream that is nothing but whole values. Every value takes a byte, and every
nested array does. -/
def decode (input : Bytes) : Option (List Value) := decodeWith input.length input

/-! ### Lines -/

theorem line_exact {text : Bytes} (htext : ¬ crlf <:+: text) : Exact line (text ++ crlf) text where
  reads rest := by
    induction text with
    | nil => rfl
    | cons byte text ih =>
        rw [crlf, List.infix_cons_iff, pair_prefix_iff] at htext
        have hmore := ih fun hpair => htext (.inr hpair)
        have hopen : ¬ (byte = 13 ∧ (text ++ crlf ++ rest).head? = some 10) := by
          rintro ⟨rfl, hhead⟩
          cases text with
          | nil => exact absurd hhead (by simp [crlf])
          | cons other text => exact htext (.inl ⟨rfl, hhead⟩)
        rw [List.cons_append, List.cons_append, line, if_neg hopen, hmore]
        rfl
  rejects cut hcut := by
    induction text generalizing cut with
    | nil =>
        obtain rfl | rfl : cut = 0 ∨ cut = 1 := by
          change cut < 2 at hcut
          omega
        · rfl
        · rfl
    | cons byte text ih =>
        cases cut with
        | zero => rfl
        | succ cut =>
            rw [crlf, List.infix_cons_iff, pair_prefix_iff] at htext
            have hmore := ih (fun hpair => htext (.inr hpair)) cut (Nat.lt_of_succ_lt_succ hcut)
            have hopen : ¬ (byte = 13 ∧ ((text ++ crlf).take cut).head? = some 10) := by
              rintro ⟨rfl, hhead⟩
              cases text with
              | nil => cases cut <;> exact absurd hhead (by simp [crlf])
              | cons other text =>
                  cases cut with
                  | zero => exact absurd hhead (by simp)
                  | succ cut => exact htext (.inl ⟨rfl, hhead⟩)
            rw [List.cons_append, List.take_succ_cons, line, if_neg hopen, hmore]
            rfl

/-- What a line gives has no CR LF in it. -/
theorem not_infix_of_line {input text rest : Bytes} (hline : line input = some (text, rest)) :
    ¬ crlf <:+: text := by
  induction input generalizing text rest with
  | nil => exact absurd hline (by simp [line])
  | cons byte input ih =>
      rw [line] at hline
      split at hline
      · obtain ⟨rfl, -⟩ := Prod.mk.inj (Option.some.inj hline)
        decide
      · rename_i hopen
        obtain ⟨⟨found, left⟩, hfound, heq⟩ := Option.map_eq_some_iff.mp hline
        obtain ⟨rfl, rfl⟩ := Prod.mk.inj heq
        rw [crlf, List.infix_cons_iff, pair_prefix_iff]
        rintro (⟨rfl, hhead⟩ | hpair)
        · -- the line would have ended here
          cases input with
          | nil => exact absurd hfound (by simp [line])
          | cons other input =>
              refine hopen ⟨rfl, ?_⟩
              rw [line] at hfound
              split at hfound
              · obtain ⟨rfl, -⟩ := Prod.mk.inj (Option.some.inj hfound)
                exact absurd hhead (by simp)
              · obtain ⟨⟨more, left'⟩, -, heq⟩ := Option.map_eq_some_iff.mp hfound
                obtain ⟨rfl, -⟩ := Prod.mk.inj heq
                exact hhead
        · exact ih hfound hpair

/-! ### Values -/

section Exact

variable {text : Bytes} (depth : Nat)

theorem simple_exact (htext : ¬ crlf <:+: text) :
    Exact (readValue (depth + 1)) ([43] ++ (text ++ crlf)) (.simple text) :=
  (u8_exact 43).bind ((line_exact htext).bind_nil (.pure _))

theorem error_exact (htext : ¬ crlf <:+: text) :
    Exact (readValue (depth + 1)) ([45] ++ (text ++ crlf)) (.error text) :=
  (u8_exact 45).bind ((line_exact htext).bind_nil (.pure _))

theorem int_exact {value : Int64} (htext : ¬ crlf <:+: text) (hvalue : integer text = some value) :
    Exact (readValue (depth + 1)) ([58] ++ (text ++ crlf)) (.int value) :=
  (u8_exact 58).bind ((line_exact htext).bind_nil ((Exact.ofOption hvalue).map _))

theorem null_exact : Exact (readValue (depth + 1)) ([36] ++ (asBytes "-1" ++ crlf)) (.bulk none) :=
  (u8_exact 36).bind ((line_exact (by decide)).bind_nil (.pure _))

theorem bulk_exact {value : Bytes} (htext : ¬ crlf <:+: text) (hsign : text ≠ asBytes "-1")
    (hsize : size text = some value.length) :
    Exact (readValue (depth + 1)) ([36] ++ (text ++ crlf ++ (value ++ crlf)))
      (.bulk (some value)) := by
  refine (u8_exact 36).bind ((line_exact htext).bind ?_)
  rw [if_neg (by decide), if_neg (by decide), if_neg (by decide), if_pos rfl, if_neg hsign]
  refine (Exact.ofOption hsize).bind ((bytes_exact value).bind ?_)
  exact (bytes_exact crlf).bind_nil (Exact.ofOption (if_pos rfl))

theorem array_exact {items : List Value} {encoding : Bytes} (htext : ¬ crlf <:+: text)
    (hsign : text ≠ asBytes "-1") (hsize : size text = some items.length)
    (hitems : Exact (times items.length (readValue depth)) encoding items) :
    Exact (readValue (depth + 1)) ([42] ++ (text ++ crlf ++ encoding)) (.array (some items)) := by
  refine (u8_exact 42).bind ((line_exact htext).bind ?_)
  rw [if_neg (by decide), if_neg (by decide), if_neg (by decide), if_neg (by decide), if_pos rfl,
    if_neg hsign]
  exact (Exact.ofOption hsize).bind (hitems.bind_nil (.pure _))

end Exact

/-- A decoded error has no CR LF in it. -/
theorem not_infix_of_readValue {depth : Nat} {input text rest : Bytes}
    (hread : readValue depth input = some (.error text, rest)) : ¬ crlf <:+: text := by
  cases depth with
  | zero => exact absurd hread (by simp [readValue, ofOption])
  | succ depth =>
      obtain ⟨⟨mark, left⟩, -, hread⟩ := Option.bind_eq_some_iff.mp hread
      obtain ⟨⟨found, left⟩, hline, hread⟩ := Option.bind_eq_some_iff.mp hread
      have hfound := not_infix_of_line hline
      dsimp only at hread
      split at hread
      · cases hread
      split at hread
      · cases hread
        exact hfound
      split at hread
      · obtain ⟨found, -, hread⟩ := Option.bind_eq_some_iff.mp hread
        cases hread
      split at hread
      · split at hread
        · cases hread
        · obtain ⟨found, -, hread⟩ := Option.bind_eq_some_iff.mp hread
          obtain ⟨found, -, hread⟩ := Option.bind_eq_some_iff.mp hread
          obtain ⟨found, -, hread⟩ := Option.bind_eq_some_iff.mp hread
          obtain ⟨value, hvalue, hread⟩ := Option.map_eq_some_iff.mp hread
          split at hvalue
          · cases hvalue
            cases hread
          · cases hvalue
      split at hread
      · split at hread
        · cases hread
        · obtain ⟨found, -, hread⟩ := Option.bind_eq_some_iff.mp hread
          obtain ⟨found, -, hread⟩ := Option.bind_eq_some_iff.mp hread
          cases hread
      · cases hread

/-! ### Streams -/

theorem not_infix_of_decodeWith {fuel : Nat} {input text : Bytes} {values : List Value}
    (hdecode : decodeWith fuel input = some values) (hmem : .error text ∈ values) :
    ¬ crlf <:+: text := by
  induction fuel generalizing input values with
  | zero =>
      cases input with
      | nil =>
          cases hdecode
          cases hmem
      | cons byte input => cases hdecode
  | succ fuel ih =>
      cases input with
      | nil =>
          cases hdecode
          cases hmem
      | cons byte input =>
          obtain ⟨⟨value, rest⟩, hread, hdecode⟩ := Option.bind_eq_some_iff.mp hdecode
          obtain ⟨later, hlater, hdecode⟩ := Option.bind_eq_some_iff.mp hdecode
          cases hdecode
          obtain rfl | hmem := List.mem_cons.mp hmem
          · exact not_infix_of_readValue hread
          · exact ih hlater hmem

/-- A stream of encodings decodes to the values they are encodings of. -/
theorem decode_flatMap {α : Type} {encode : α → Bytes} {value : α → Value} {items : List α}
    (hencode : ∀ item ∈ items, encode item ≠ [])
    (hexact : ∀ item ∈ items, ∀ depth, (encode item).length ≤ depth →
      Exact (readValue depth) (encode item) (value item)) :
    decode (items.flatMap encode) = some (items.map value) := by
  have hfuel : items.length ≤ (items.flatMap encode).length := by
    clear hexact
    induction items with
    | nil => exact Nat.le_refl 0
    | cons item items ih =>
        have hfirst := List.length_pos_iff.mpr (hencode item List.mem_cons_self)
        have hlater := ih fun other hmem => hencode other (List.mem_cons_of_mem item hmem)
        rw [List.flatMap_cons, List.length_append, List.length_cons]
        omega
  rw [decode]
  generalize (items.flatMap encode).length = fuel at hfuel
  induction items generalizing fuel with
  | nil => cases fuel <;> rfl
  | cons item items ih =>
      obtain ⟨fuel, rfl⟩ := Nat.exists_eq_succ_of_ne_zero (Nat.ne_of_gt (Nat.zero_lt_of_lt hfuel))
      have hlater := ih (fun other hmem => hencode other (List.mem_cons_of_mem item hmem))
        (fun other hmem => hexact other (List.mem_cons_of_mem item hmem)) fuel
        (Nat.le_of_succ_le_succ hfuel)
      have hread := (hexact item List.mem_cons_self (encode item ++ items.flatMap encode).length
        (by simp)).reads (items.flatMap encode)
      obtain ⟨byte, rest, hcons⟩ := List.exists_cons_of_ne_nil
        (List.append_ne_nil_of_left_ne_nil (hencode item List.mem_cons_self) (items.flatMap encode))
      rw [hcons] at hread
      rw [List.flatMap_cons, hcons, decodeWith, hread]
      change (decodeWith fuel (items.flatMap encode)).bind _ = _
      rw [hlater]
      rfl

end Resp2
