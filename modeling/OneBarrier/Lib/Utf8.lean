import OneBarrier.Lib.Reader

/-!
# UTF-8 text

Decoding follows the maximal-subpart rule: at each position either a well-formed sequence gives its
character, or the longest run of bytes that could have started one is a single error. A strict
decoder fails on the first error and a lossy one writes U+FFFD for each; ASCII bytes it leaves where
they are.
-/

namespace Utf8

open Wire

/-- A continuation byte, `10xxxxxx`. -/
def isContinuation (byte : UInt8) : Bool := 0x80 ≤ byte && byte ≤ 0xBF

/-- Whether `second` may follow `lead` in a three-byte sequence: no overlong form, no surrogate. -/
def secondOfThree (lead second : UInt8) : Bool :=
  if lead = 0xE0 then 0xA0 ≤ second && second ≤ 0xBF
  else if lead = 0xED then 0x80 ≤ second && second ≤ 0x9F
  else isContinuation second

/-- Whether `second` may follow `lead` in a four-byte sequence: no overlong form, at most U+10FFFF. -/
def secondOfFour (lead second : UInt8) : Bool :=
  if lead = 0xF0 then 0x90 ≤ second && second ≤ 0xBF
  else if lead = 0xF4 then 0x80 ≤ second && second ≤ 0x8F
  else isContinuation second

/-- The character of a sequence whose lead byte carries `lead` and whose continuation bytes follow. -/
def assemble (lead : Nat) (continuation : List UInt8) : Char :=
  Char.ofNat (continuation.foldl (fun value byte => value * 64 + byte.toNat % 64) lead)

/-- One position: the character a well-formed sequence starting with `b0` encodes, or an error, and
the bytes after it. -/
def next (b0 : UInt8) (r0 : Bytes) : Option Char × Bytes :=
  if b0 < 0x80 then (some (assemble b0.toNat []), r0)
  else if 0xC2 ≤ b0 && b0 ≤ 0xDF then
    match r0 with
    | [] => (none, r0)
    | b1 :: r1 => if isContinuation b1 then (some (assemble (b0.toNat % 32) [b1]), r1) else (none, r0)
  else if 0xE0 ≤ b0 && b0 ≤ 0xEF then
    match r0 with
    | [] => (none, r0)
    | b1 :: r1 =>
        if secondOfThree b0 b1 then
          match r1 with
          | [] => (none, r1)
          | b2 :: r2 =>
              if isContinuation b2 then (some (assemble (b0.toNat % 16) [b1, b2]), r2) else (none, r1)
        else (none, r0)
  else if 0xF0 ≤ b0 && b0 ≤ 0xF4 then
    match r0 with
    | [] => (none, r0)
    | b1 :: r1 =>
        if secondOfFour b0 b1 then
          match r1 with
          | [] => (none, r1)
          | b2 :: r2 =>
              if isContinuation b2 then
                match r2 with
                | [] => (none, r2)
                | b3 :: r3 =>
                    if isContinuation b3 then (some (assemble (b0.toNat % 8) [b1, b2, b3]), r3)
                    else (none, r2)
              else (none, r1)
        else (none, r0)
  else (none, r0)

/-- The text position by position. Every position takes a byte, so the length is fuel enough. -/
def scanWith : Nat → Bytes → List (Option Char)
  | 0, _ => []
  | _, [] => []
  | fuel + 1, byte :: rest => (next byte rest).1 :: scanWith fuel (next byte rest).2

def scan (input : Bytes) : List (Option Char) := scanWith input.length input

/-- `str::as_bytes`. -/
def asBytes (text : String) : Bytes := text.toList.flatMap String.utf8EncodeChar

/-- `String::from_utf8`: the text, or nothing when the bytes are ill-formed anywhere. -/
def fromUtf8 (input : Bytes) : Option String := ((scan input).mapM id).map String.ofList

/-- `String::from_utf8_lossy`: every maximal ill-formed subpart becomes U+FFFD. -/
def fromUtf8Lossy (input : Bytes) : String :=
  String.ofList ((scan input).map fun char => char.getD '\uFFFD')

/-! ### Round trip -/

theorem toNat_ofNat_of_lt {value : Nat} (hvalue : value < 256) : (UInt8.ofNat value).toNat = value := by
  rw [UInt8.toNat_ofNat', Nat.mod_eq_of_lt hvalue]

theorem isContinuation_iff {byte : UInt8} :
    isContinuation byte = true ↔ 128 ≤ byte.toNat ∧ byte.toNat ≤ 191 := by
  simp [isContinuation, UInt8.le_iff_toNat_le]

theorem secondOfThree_iff {lead second : UInt8} :
    secondOfThree lead second = true ↔ 128 ≤ second.toNat ∧ second.toNat ≤ 191
      ∧ (lead.toNat = 224 → 160 ≤ second.toNat) ∧ (lead.toNat = 237 → second.toNat ≤ 159) := by
  have heq : ∀ byte : UInt8, lead = byte ↔ lead.toNat = byte.toNat := fun _ => UInt8.toNat_inj.symm
  simp only [secondOfThree, isContinuation, heq, UInt8.le_iff_toNat_le, UInt8.reduceToNat]
  grind

theorem secondOfFour_iff {lead second : UInt8} :
    secondOfFour lead second = true ↔ 128 ≤ second.toNat ∧ second.toNat ≤ 191
      ∧ (lead.toNat = 240 → 144 ≤ second.toNat) ∧ (lead.toNat = 244 → second.toNat ≤ 143) := by
  have heq : ∀ byte : UInt8, lead = byte ↔ lead.toNat = byte.toNat := fun _ => UInt8.toNat_inj.symm
  simp only [secondOfFour, isContinuation, heq, UInt8.le_iff_toNat_le, UInt8.reduceToNat]
  grind

theorem next_one {b0 : UInt8} (hb0 : b0.toNat < 128) (rest : Bytes) :
    next b0 rest = (some (Char.ofNat b0.toNat), rest) := by
  have hlt : b0 < 0x80 := UInt8.lt_iff_toNat_lt.mpr hb0
  simp only [next, if_pos hlt, assemble, List.foldl_nil]

theorem next_two {b0 b1 : UInt8} (hb0 : 194 ≤ b0.toNat) (hb0' : b0.toNat ≤ 223)
    (hb1 : 128 ≤ b1.toNat) (hb1' : b1.toNat ≤ 191) (rest : Bytes) :
    next b0 (b1 :: rest)
      = (some (Char.ofNat (b0.toNat % 32 * 64 + b1.toNat % 64)), rest) := by
  have hlead : ¬ b0.toNat < 128 := by omega
  have hcont := isContinuation_iff.mpr ⟨hb1, hb1'⟩
  simp [next, assemble, UInt8.lt_iff_toNat_lt, UInt8.le_iff_toNat_le, hlead, hb0, hb0', hcont]

theorem next_three {b0 b1 b2 : UInt8} (hb0 : 224 ≤ b0.toNat) (hb0' : b0.toNat ≤ 239)
    (hb1 : secondOfThree b0 b1 = true) (hb2 : isContinuation b2 = true) (rest : Bytes) :
    next b0 (b1 :: b2 :: rest)
      = (some (Char.ofNat ((b0.toNat % 16 * 64 + b1.toNat % 64) * 64 + b2.toNat % 64)), rest) := by
  have hlead : ¬ b0.toNat < 128 := by omega
  have hnot : ¬ b0.toNat ≤ 223 := by omega
  simp [next, assemble, UInt8.lt_iff_toNat_lt, UInt8.le_iff_toNat_le, hlead, hnot, hb0, hb0', hb1,
    hb2]

theorem next_four {b0 b1 b2 b3 : UInt8} (hb0 : 240 ≤ b0.toNat) (hb0' : b0.toNat ≤ 244)
    (hb1 : secondOfFour b0 b1 = true) (hb2 : isContinuation b2 = true)
    (hb3 : isContinuation b3 = true) (rest : Bytes) :
    next b0 (b1 :: b2 :: b3 :: rest)
      = (some (Char.ofNat (((b0.toNat % 8 * 64 + b1.toNat % 64) * 64 + b2.toNat % 64) * 64
          + b3.toNat % 64)), rest) := by
  have hlead : ¬ b0.toNat < 128 := by omega
  have hnot : ¬ b0.toNat ≤ 223 := by omega
  have hnot' : ¬ b0.toNat ≤ 239 := by omega
  simp [next, assemble, UInt8.lt_iff_toNat_lt, UInt8.le_iff_toNat_le, hlead, hnot, hnot', hb0,
    hb0', hb1, hb2, hb3]

/-- Decoding at the encoding of a character gives the character and stops behind it. -/
theorem exists_next_utf8EncodeChar (char : Char) (rest : Bytes) :
    ∃ byte tail, String.utf8EncodeChar char ++ rest = byte :: tail
      ∧ next byte tail = (some char, rest) := by
  have hchar : Char.ofNat char.val.toNat = char := Char.ofNat_toNat char
  have hvalid : char.val.toNat < 55296 ∨ 57343 < char.val.toNat ∧ char.val.toNat < 1114112 :=
    char.valid
  unfold String.utf8EncodeChar
  generalize char.val.toNat = value at hchar hvalid
  have hbyte : ∀ {n : Nat}, n < 256 → (UInt8.ofNat n).toNat = n := toNat_ofNat_of_lt
  have hlow : ∀ n : Nat, isContinuation (UInt8.ofNat (n % 64 + 128)) = true := by
    intro n
    rw [isContinuation_iff, hbyte (by omega)]
    omega
  by_cases hone : value ≤ 127
  · refine ⟨UInt8.ofNat value, rest, by simp [hone], ?_⟩
    have hb0 := hbyte (show value < 256 by omega)
    rw [next_one (by omega), hb0, hchar]
  by_cases htwo : value ≤ 2047
  · refine ⟨UInt8.ofNat (value / 64 % 32 + 192), UInt8.ofNat (value % 64 + 128) :: rest,
      by simp [hone, htwo], ?_⟩
    have hb0 := hbyte (show value / 64 % 32 + 192 < 256 by omega)
    have hb1 := hbyte (show value % 64 + 128 < 256 by omega)
    have hvalue : (value / 64 % 32 + 192) % 32 * 64 + (value % 64 + 128) % 64 = value := by omega
    rw [next_two (by omega) (by omega) (by omega) (by omega), hb0, hb1, hvalue, hchar]
  by_cases hthree : value ≤ 65535
  · refine ⟨UInt8.ofNat (value / 4096 % 16 + 224), UInt8.ofNat (value / 64 % 64 + 128)
      :: UInt8.ofNat (value % 64 + 128) :: rest, by simp [hone, htwo, hthree], ?_⟩
    have hb0 := hbyte (show value / 4096 % 16 + 224 < 256 by omega)
    have hb1 := hbyte (show value / 64 % 64 + 128 < 256 by omega)
    have hb2 := hbyte (show value % 64 + 128 < 256 by omega)
    have hsecond : secondOfThree (UInt8.ofNat (value / 4096 % 16 + 224))
        (UInt8.ofNat (value / 64 % 64 + 128)) = true := by
      rw [secondOfThree_iff, hb0, hb1]
      omega
    have hvalue : ((value / 4096 % 16 + 224) % 16 * 64 + (value / 64 % 64 + 128) % 64) * 64
        + (value % 64 + 128) % 64 = value := by omega
    rw [next_three (by omega) (by omega) hsecond (hlow _), hb0, hb1, hb2, hvalue, hchar]
  · refine ⟨UInt8.ofNat (value / 262144 % 8 + 240), UInt8.ofNat (value / 4096 % 64 + 128)
      :: UInt8.ofNat (value / 64 % 64 + 128) :: UInt8.ofNat (value % 64 + 128) :: rest,
      by simp [hone, htwo, hthree], ?_⟩
    have hb0 := hbyte (show value / 262144 % 8 + 240 < 256 by omega)
    have hb1 := hbyte (show value / 4096 % 64 + 128 < 256 by omega)
    have hb2 := hbyte (show value / 64 % 64 + 128 < 256 by omega)
    have hb3 := hbyte (show value % 64 + 128 < 256 by omega)
    have hsecond : secondOfFour (UInt8.ofNat (value / 262144 % 8 + 240))
        (UInt8.ofNat (value / 4096 % 64 + 128)) = true := by
      rw [secondOfFour_iff, hb0, hb1]
      omega
    have hvalue : (((value / 262144 % 8 + 240) % 8 * 64 + (value / 4096 % 64 + 128) % 64) * 64
        + (value / 64 % 64 + 128) % 64) * 64 + (value % 64 + 128) % 64 = value := by omega
    rw [next_four (by omega) (by omega) hsecond (hlow _) (hlow _), hb0, hb1, hb2, hb3, hvalue,
      hchar]

theorem length_next_le (byte : UInt8) (rest : Bytes) :
    (next byte rest).2.length ≤ rest.length := by
  unfold next
  grind

/-- Any fuel that covers the input gives the same scan. -/
theorem scanWith_eq_of_le {fuel : Nat} {input : Bytes} (hfuel : input.length ≤ fuel) :
    scanWith fuel input = scan input := by
  unfold scan
  generalize hlen : input.length = length at hfuel ⊢
  induction length using Nat.strong_induction_on generalizing fuel input with
  | _ length ih =>
      cases input with
      | nil => cases fuel <;> cases length <;> rfl
      | cons byte rest =>
          obtain ⟨length, rfl⟩ : ∃ n, length = n + 1 := ⟨rest.length, by simpa using hlen.symm⟩
          obtain ⟨fuel, rfl⟩ : ∃ n, fuel = n + 1 := ⟨fuel - 1, by omega⟩
          have hrest : rest.length = length := by simpa using hlen
          have hnext := length_next_le byte rest
          have hleft : scanWith fuel (next byte rest).2 = _ :=
            ih (next byte rest).2.length (by omega) rfl (by omega)
          have hright : scanWith length (next byte rest).2 = _ :=
            ih (next byte rest).2.length (by omega) rfl (by omega)
          rw [scanWith, scanWith, hleft, hright]

theorem scan_cons (byte : UInt8) (rest : Bytes) :
    scan (byte :: rest) = (next byte rest).1 :: scan (next byte rest).2 := by
  rw [scan, List.length_cons, scanWith, scanWith_eq_of_le (length_next_le byte rest)]

theorem scan_utf8EncodeChar_append (char : Char) (rest : Bytes) :
    scan (String.utf8EncodeChar char ++ rest) = some char :: scan rest := by
  obtain ⟨byte, tail, happend, hnext⟩ := exists_next_utf8EncodeChar char rest
  rw [happend, scan_cons, hnext]

theorem scan_flatMap_utf8EncodeChar (chars : List Char) :
    scan (chars.flatMap String.utf8EncodeChar) = chars.map some := by
  induction chars with
  | nil => rfl
  | cons char chars ih => rw [List.flatMap_cons, scan_utf8EncodeChar_append, ih, List.map_cons]

theorem mapM_id_map_some (chars : List Char) : (chars.map some).mapM id = some chars := by
  induction chars with
  | nil => rfl
  | cons char chars ih => simp [List.mapM_cons, ih]

@[simp]
theorem fromUtf8_asBytes (text : String) : fromUtf8 (asBytes text) = some text := by
  rw [fromUtf8, asBytes, scan_flatMap_utf8EncodeChar, mapM_id_map_some, Option.map_some,
    String.ofList_toList]

/-- Lossy decoding is the identity on text. -/
@[simp]
theorem fromUtf8Lossy_asBytes (text : String) : fromUtf8Lossy (asBytes text) = text := by
  rw [fromUtf8Lossy, asBytes, scan_flatMap_utf8EncodeChar, List.map_map]
  simp [Function.comp_def]

/-- How many bytes a character takes, from a bound on its code point. -/
theorem length_utf8EncodeChar_ofNat_le (value : Nat) :
    (String.utf8EncodeChar (Char.ofNat value)).length
      ≤ if value < 128 then 1 else if value < 2048 then 2 else if value < 65536 then 3 else 4 := by
  have hcode : (Char.ofNat value).val.toNat = value ∨ (Char.ofNat value).val.toNat = 0 := by
    by_cases hvalid : value.isValidChar
    · rw [Char.ofNat, dif_pos hvalid]
      exact .inl rfl
    · rw [Char.ofNat, dif_neg hvalid]
      exact .inr rfl
  unfold String.utf8EncodeChar
  generalize (Char.ofNat value).val.toNat = code at hcode
  grind

/-- A well-formed position takes at least as many bytes as its character is written with. -/
theorem length_utf8EncodeChar_next (byte : UInt8) (rest : Bytes) :
    ∀ char ∈ (next byte rest).1,
      (String.utf8EncodeChar char).length + (next byte rest).2.length ≤ rest.length + 1 := by
  have hgiven : ∀ (taken value : Nat) (left : Bytes),
      value < (if taken = 0 then 128 else if taken = 1 then 2048
        else if taken = 2 then 65536 else 2097152) → taken ≤ 3 → taken + left.length = rest.length →
      ∀ char ∈ some (Char.ofNat value),
        (String.utf8EncodeChar char).length + left.length ≤ rest.length + 1 := by
    intro taken value left hvalue htaken hlength char hchar
    obtain rfl := Option.some.inj hchar
    have hsize := length_utf8EncodeChar_ofNat_le value
    grind
  have hlow : ∀ b : UInt8, b.toNat % 64 < 64 := fun b => Nat.mod_lt _ (by decide)
  unfold next
  split
  · rename_i hone
    rw [UInt8.lt_iff_toNat_lt] at hone
    exact hgiven 0 byte.toNat rest (by simpa using hone) (by omega) (by omega)
  split
  · split
    · nofun
    · rename_i b1 r1
      split
      · have hb1 := hlow b1
        exact hgiven 1 (byte.toNat % 32 * 64 + b1.toNat % 64) r1 (by simp; omega) (by omega)
          (by simp; omega)
      · nofun
  split
  · split
    · nofun
    · rename_i b1 r1
      split
      · split
        · nofun
        · rename_i b2 r2
          split
          · have hb1 := hlow b1
            have hb2 := hlow b2
            exact hgiven 2 ((byte.toNat % 16 * 64 + b1.toNat % 64) * 64 + b2.toNat % 64) r2
              (by simp; omega) (by omega) (by simp; omega)
          · nofun
      · nofun
  split
  · split
    · nofun
    · rename_i b1 r1
      split
      · split
        · nofun
        · rename_i b2 r2
          split
          · split
            · nofun
            · rename_i b3 r3
              split
              · have hb1 := hlow b1
                have hb2 := hlow b2
                have hb3 := hlow b3
                exact hgiven 3
                  (((byte.toNat % 8 * 64 + b1.toNat % 64) * 64 + b2.toNat % 64) * 64 + b3.toNat % 64) r3
                  (by simp; omega) (by omega) (by simp; omega)
              · nofun
          · nofun
      · nofun
  · nofun

/-- Text takes no more bytes than it was decoded from. -/
theorem length_asBytes_le {input : Bytes} {text : String} (htext : fromUtf8 input = some text) :
    (asBytes text).length ≤ input.length := by
  obtain ⟨chars, hchars, rfl⟩ := Option.map_eq_some_iff.mp htext
  rw [asBytes, String.toList_ofList]
  clear htext
  generalize hlen : input.length = length
  induction length using Nat.strong_induction_on generalizing input chars with
  | _ length ih =>
      cases input with
      | nil =>
          obtain rfl : chars = [] := by simpa [scan, scanWith] using hchars.symm
          exact Nat.zero_le _
      | cons byte rest =>
          rw [scan_cons, List.mapM_cons] at hchars
          obtain ⟨char, hchar, hrest⟩ := Option.bind_eq_some_iff.mp hchars
          obtain ⟨later, hlater, hcons⟩ := Option.bind_eq_some_iff.mp hrest
          obtain rfl := Option.some.inj hcons
          have hsize := length_utf8EncodeChar_next byte rest char hchar
          have hnext := length_next_le byte rest
          rw [List.length_cons] at hlen
          have hle := ih (next byte rest).2.length (by omega) later hlater rfl
          rw [List.flatMap_cons, List.length_append]
          omega

theorem asBytes_append (first second : String) :
    asBytes (first ++ second) = asBytes first ++ asBytes second := by
  simp [asBytes]

theorem asBytes_replicate (count : Nat) :
    asBytes (String.ofList (List.replicate count 'a')) = List.replicate count 97 := by
  rw [asBytes, String.toList_ofList]
  induction count with
  | zero => rfl
  | succ count ih =>
      rw [List.replicate_succ, List.replicate_succ, List.flatMap_cons, ih]
      rfl

/-! ### ASCII under lossy decoding -/

/-- A character that does not fit one byte. -/
theorem utf8EncodeChar_high {char : Char} (hchar : 128 ≤ char.toNat) :
    ∀ byte ∈ String.utf8EncodeChar char, 128 ≤ byte.toNat := by
  have hvalid : char.val.toNat < 55296 ∨ 57343 < char.val.toNat ∧ char.val.toNat < 1114112 :=
    char.valid
  change 128 ≤ char.val.toNat at hchar
  unfold String.utf8EncodeChar
  generalize char.val.toNat = value at hchar hvalid
  have hbyte : ∀ {n : Nat}, n < 256 → (UInt8.ofNat n).toNat = n := toNat_ofNat_of_lt
  intro byte hmem
  simp only [show ¬ value ≤ 127 by omega, if_false] at hmem
  split at hmem
  · simp only [List.mem_cons, List.not_mem_nil, or_false] at hmem
    obtain rfl | rfl := hmem <;> rw [hbyte (by omega)] <;> omega
  split at hmem
  · simp only [List.mem_cons, List.not_mem_nil, or_false] at hmem
    obtain rfl | rfl | rfl := hmem <;> rw [hbyte (by omega)] <;> omega
  · simp only [List.mem_cons, List.not_mem_nil, or_false] at hmem
    obtain rfl | rfl | rfl | rfl := hmem <;> rw [hbyte (by omega)] <;> omega

theorem notMem_asBytes {byte : UInt8} (hbyte : byte.toNat < 128) {text : List Char}
    (htext : Char.ofNat byte.toNat ∉ text) : byte ∉ asBytes (String.ofList text) := by
  rw [asBytes, String.toList_ofList]
  intro hmem
  obtain ⟨char, hchar, hmem⟩ := List.mem_flatMap.mp hmem
  by_cases hlow : char.toNat < 128
  · refine htext ?_
    have hencode : String.utf8EncodeChar char = [UInt8.ofNat char.toNat] := by
      have hval : char.val.toNat ≤ 127 := Nat.le_of_lt_succ hlow
      unfold String.utf8EncodeChar
      dsimp only
      rw [if_pos hval]
      rfl
    rw [hencode, List.mem_singleton] at hmem
    rw [hmem, toNat_ofNat_of_lt (by omega), Char.ofNat_toNat]
    exact hchar
  · have := utf8EncodeChar_high (by omega) byte hmem
    omega

theorem toNat_charOfNat {value : Nat}
    (hvalue : value < 55296 ∨ 57343 < value ∧ value < 1114112) : (Char.ofNat value).toNat = value := by
  rw [Char.ofNat, dif_pos hvalue]
  rfl

/-- A position that does not start with an ASCII byte takes none, and gives no ASCII character. -/
theorem next_high {byte : UInt8} (hbyte : 128 ≤ byte.toNat) (rest : Bytes) :
    (∃ consumed, rest = consumed ++ (next byte rest).2 ∧ ∀ b ∈ consumed, 128 ≤ b.toNat)
      ∧ ∀ char ∈ (next byte rest).1, 128 ≤ char.toNat := by
  have hlead : ¬ byte < 0x80 := by
    rw [UInt8.lt_iff_toNat_lt]
    exact Nat.not_lt.mpr hbyte
  have hhigh : ∀ b : UInt8, isContinuation b = true → 128 ≤ b.toNat ∧ b.toNat ≤ 191 :=
    fun b hb => isContinuation_iff.mp hb
  have herror : ∀ consumed left : Bytes, (∀ b ∈ consumed, 128 ≤ b.toNat) →
      (∃ taken, consumed ++ left = taken ++ left ∧ ∀ b ∈ taken, 128 ≤ b.toNat)
        ∧ ∀ char ∈ (none : Option Char), 128 ≤ char.toNat :=
    fun consumed left hconsumed => ⟨⟨consumed, rfl, hconsumed⟩, nofun⟩
  have hgiven : ∀ (consumed left : Bytes) (value : Nat), (∀ b ∈ consumed, 128 ≤ b.toNat) →
      128 ≤ value → (value < 55296 ∨ 57343 < value ∧ value < 1114112) →
      (∃ taken, consumed ++ left = taken ++ left ∧ ∀ b ∈ taken, 128 ≤ b.toNat)
        ∧ ∀ char ∈ some (Char.ofNat value), 128 ≤ char.toNat := by
    intro consumed left value hconsumed hvalue hvalid
    refine ⟨⟨consumed, rfl, hconsumed⟩, fun char hchar => ?_⟩
    rw [← Option.some.inj hchar, toNat_charOfNat hvalid]
    exact hvalue
  have hlow : ∀ b : UInt8, b.toNat % 64 < 64 := fun b => Nat.mod_lt _ (by decide)
  unfold next
  rw [if_neg hlead]
  split
  · rename_i htwo
    simp only [UInt8.le_iff_toNat_le, Bool.and_eq_true, decide_eq_true_eq, UInt8.reduceToNat] at htwo
    split
    · exact herror [] [] (by simp)
    · rename_i b1 r1
      split
      · rename_i hb1
        have hb1 := hhigh b1 hb1
        exact hgiven [b1] r1 (byte.toNat % 32 * 64 + b1.toNat % 64) (by simp [hb1]) (by omega)
          (by omega)
      · exact herror [] _ (by simp)
  split
  · rename_i hthree
    simp only [UInt8.le_iff_toNat_le, Bool.and_eq_true, decide_eq_true_eq, UInt8.reduceToNat] at hthree
    split
    · exact herror [] [] (by simp)
    · rename_i b1 r1
      split
      · rename_i hb1
        have hb1 := secondOfThree_iff.mp hb1
        split
        · exact herror [b1] [] (by simp [hb1])
        · rename_i b2 r2
          split
          · rename_i hb2
            have hb2 := hhigh b2 hb2
            exact hgiven [b1, b2] r2 ((byte.toNat % 16 * 64 + b1.toNat % 64) * 64 + b2.toNat % 64)
              (by simp [hb1, hb2]) (by omega) (by omega)
          · exact herror [b1] _ (by simp [hb1])
      · exact herror [] _ (by simp)
  split
  · rename_i hfour
    simp only [UInt8.le_iff_toNat_le, Bool.and_eq_true, decide_eq_true_eq, UInt8.reduceToNat] at hfour
    split
    · exact herror [] [] (by simp)
    · rename_i b1 r1
      split
      · rename_i hb1
        have hb1 := secondOfFour_iff.mp hb1
        split
        · exact herror [b1] [] (by simp [hb1])
        · rename_i b2 r2
          split
          · rename_i hb2
            have hb2 := hhigh b2 hb2
            split
            · exact herror [b1, b2] [] (by simp [hb1, hb2])
            · rename_i b3 r3
              split
              · rename_i hb3
                have hb3 := hhigh b3 hb3
                exact hgiven [b1, b2, b3] r3
                  (((byte.toNat % 8 * 64 + b1.toNat % 64) * 64 + b2.toNat % 64) * 64 + b3.toNat % 64)
                  (by simp [hb1, hb2, hb3]) (by omega) (by omega)
              · exact herror [b1, b2] _ (by simp [hb1, hb2])
          · exact herror [b1] _ (by simp [hb1])
      · exact herror [] _ (by simp)
  · exact herror [] _ (by simp)

section Pair

variable {first second : UInt8}

theorem pair_infix_append_left {front : Bytes} (hfront : first ∉ front) (text : Bytes) :
    [first, second] <:+: front ++ text ↔ [first, second] <:+: text := by
  induction front with
  | nil => rfl
  | cons byte front ih =>
      have hbyte : first ≠ byte := fun heq => hfront (heq ▸ List.mem_cons_self)
      have hrest := ih fun hmem => hfront (List.mem_cons_of_mem byte hmem)
      rw [List.cons_append, List.infix_cons_iff, hrest, List.cons_prefix_cons]
      simp [hbyte]

theorem pair_prefix_iff {byte : UInt8} {text : Bytes} :
    [first, second] <+: byte :: text ↔ first = byte ∧ text.head? = some second := by
  rw [List.cons_prefix_cons]
  cases text with
  | nil => simp
  | cons other text => simp [List.cons_prefix_cons, eq_comm]

theorem pair_infix_append_right {back : Bytes} (hback : second ∉ back) (text : Bytes) :
    [first, second] <:+: text ++ back ↔ [first, second] <:+: text := by
  induction text with
  | nil =>
      refine iff_of_false (fun hpair => ?_) (by simp)
      exact hback (hpair.subset (by simp))
  | cons byte text ih =>
      rw [List.cons_append, List.infix_cons_iff, List.infix_cons_iff, ih, pair_prefix_iff,
        pair_prefix_iff]
      cases text with
      | nil =>
          have hhead : back.head? ≠ some second := fun hhead => hback (List.mem_of_head? hhead)
          simp [hhead]
      | cons other text => rfl

/-- The bytes of the text that lossy decoding gives. -/
def lossyBytes (input : Bytes) : Bytes := asBytes (fromUtf8Lossy input)

theorem lossyBytes_cons (byte : UInt8) (rest : Bytes) :
    lossyBytes (byte :: rest) = String.utf8EncodeChar ((next byte rest).1.getD '\uFFFD')
      ++ lossyBytes (next byte rest).2 := by
  simp only [lossyBytes, asBytes, fromUtf8Lossy, String.toList_ofList, scan_cons, List.map_cons,
    List.flatMap_cons]

theorem lossyBytes_cons_low {byte : UInt8} (hbyte : byte.toNat < 128) (rest : Bytes) :
    lossyBytes (byte :: rest) = byte :: lossyBytes rest := by
  have hvalue : (Char.ofNat byte.toNat).val.toNat = byte.toNat := toNat_charOfNat (by omega)
  rw [lossyBytes_cons, next_one hbyte, Option.getD_some, String.utf8EncodeChar, hvalue]
  simp only [show byte.toNat ≤ 127 by omega, if_true, UInt8.ofNat_toNat, List.singleton_append]

theorem exists_lossyBytes_cons_high {byte : UInt8} (hbyte : 128 ≤ byte.toNat) (rest : Bytes) :
    ∃ shown consumed, lossyBytes (byte :: rest) = shown ++ lossyBytes (next byte rest).2
      ∧ rest = consumed ++ (next byte rest).2 ∧ shown ≠ []
      ∧ (∀ b ∈ shown, 128 ≤ b.toNat) ∧ ∀ b ∈ consumed, 128 ≤ b.toNat := by
  obtain ⟨⟨consumed, hrest, hconsumed⟩, hchar⟩ := next_high hbyte rest
  have hhigh : 128 ≤ ((next byte rest).1.getD '\uFFFD').toNat := by
    cases hnext : (next byte rest).1 with
    | none => decide
    | some char => exact hchar char hnext
  refine ⟨_, consumed, lossyBytes_cons byte rest, hrest, ?_, utf8EncodeChar_high hhigh, hconsumed⟩
  exact String.utf8EncodeChar_ne_nil

theorem head?_lossyBytes (hsecond : second.toNat < 128) (text : Bytes) :
    (lossyBytes text).head? = some second ↔ text.head? = some second := by
  cases text with
  | nil => rfl
  | cons byte rest =>
      by_cases hbyte : byte.toNat < 128
      · rw [lossyBytes_cons_low hbyte]
        rfl
      · obtain ⟨shown, consumed, hshown, -, hne, hhigh, -⟩ :=
          exists_lossyBytes_cons_high (Nat.le_of_not_lt hbyte) rest
        refine iff_of_false (fun hhead => ?_) (fun hhead => ?_)
        · rw [hshown, List.head?_append_of_ne_nil _ hne] at hhead
          have hlow := hhigh second (List.mem_of_head? hhead)
          omega
        · rw [List.head?_cons, Option.some.injEq] at hhead
          rw [hhead] at hbyte
          exact hbyte hsecond

/-- Two ASCII bytes stand side by side after lossy decoding exactly where they did before. -/
theorem pair_infix_lossyBytes (hfirst : first.toNat < 128) (hsecond : second.toNat < 128)
    (text : Bytes) : [first, second] <:+: lossyBytes text ↔ [first, second] <:+: text := by
  induction hlength : text.length using Nat.strong_induction_on generalizing text with
  | _ length ih =>
      cases text with
      | nil => rfl
      | cons byte rest =>
          rw [List.length_cons] at hlength
          by_cases hbyte : byte.toNat < 128
          · rw [lossyBytes_cons_low hbyte, List.infix_cons_iff, List.infix_cons_iff, pair_prefix_iff,
              pair_prefix_iff, head?_lossyBytes hsecond, ih rest.length (by omega) rest rfl]
          · obtain ⟨shown, consumed, hshown, hrest, -, hhigh, hconsumed⟩ :=
              exists_lossyBytes_cons_high (Nat.le_of_not_lt hbyte) rest
            have hnext := length_next_le byte rest
            have hlater := ih (next byte rest).2.length (by omega) (next byte rest).2 rfl
            have hfront : first ∉ byte :: consumed := by
              intro hmem
              obtain rfl | hmem := List.mem_cons.mp hmem
              · exact hbyte hfirst
              · exact absurd (hconsumed first hmem) (by omega)
            have hfront' : first ∉ shown := fun hmem => absurd (hhigh first hmem) (by omega)
            calc [first, second] <:+: lossyBytes (byte :: rest)
                ↔ [first, second] <:+: lossyBytes (next byte rest).2 := by
                  rw [hshown, pair_infix_append_left hfront']
              _ ↔ [first, second] <:+: (next byte rest).2 := hlater
              _ ↔ [first, second] <:+: (byte :: consumed) ++ (next byte rest).2 :=
                  (pair_infix_append_left hfront _).symm
              _ ↔ [first, second] <:+: byte :: rest := by rw [List.cons_append, ← hrest]

end Pair

end Utf8
