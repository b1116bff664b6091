import Mathlib.Data.List.Basic
import Mathlib.Tactic.Ring

/-!
# Byte readers

A reader consumes bytes from the front of a list and fails past its end. The codecs of a storage
format are chains of such readers, and two facts about a chain are worth having once: it gives the
value back whatever follows the encoding, and it fails on every proper prefix of the encoding.
`Exact` carries both, so a format's round trip and its truncation behaviour come from one proof.
-/

namespace Wire

abbrev Bytes := List UInt8

/-- A bounds-checked cursor: the unread bytes are the state, and `none` is a read past the end. -/
abbrev Reader := StateT Bytes Option

/-! ### Little-endian integers -/

/-- The `width` little-endian bytes of a natural. -/
def leBytes : Nat → Nat → Bytes
  | 0, _ => []
  | width + 1, value => UInt8.ofNat value :: leBytes width (value / 256)

/-- The natural whose little-endian bytes are given. -/
def leNat : Bytes → Nat
  | [] => 0
  | byte :: bytes => byte.toNat + 256 * leNat bytes

@[simp]
theorem length_leBytes (width value : Nat) : (leBytes width value).length = width := by
  induction width generalizing value with
  | zero => rfl
  | succ width ih => simp [leBytes, ih]

theorem leNat_leBytes_mod (width value : Nat) :
    leNat (leBytes width value) = value % 256 ^ width := by
  induction width generalizing value with
  | zero => simp [leBytes, leNat, Nat.mod_one]
  | succ width ih =>
      have hbyte : (UInt8.ofNat value).toNat = value % 256 := UInt8.toNat_ofNat'
      rw [leBytes, leNat, ih, hbyte, pow_succ', Nat.mod_mul]

theorem leNat_leBytes {width value : Nat} (hvalue : value < 256 ^ width) :
    leNat (leBytes width value) = value := by
  rw [leNat_leBytes_mod, Nat.mod_eq_of_lt hvalue]

theorem leBytes_leNat (bytes : Bytes) : leBytes bytes.length (leNat bytes) = bytes := by
  induction bytes with
  | nil => rfl
  | cons byte bytes ih =>
      have hbyte := byte.toNat_lt
      have hfirst : UInt8.ofNat (byte.toNat + 256 * leNat bytes) = byte := by
        apply UInt8.toNat_inj.mp
        rw [UInt8.toNat_ofNat']
        omega
      have hrest : (byte.toNat + 256 * leNat bytes) / 256 = leNat bytes := by omega
      rw [List.length_cons, leNat, leBytes, hfirst, hrest, ih]

theorem leNat_lt (bytes : Bytes) : leNat bytes < 256 ^ bytes.length := by
  induction bytes with
  | nil => simp [leNat]
  | cons byte bytes ih =>
      have hbyte := byte.toNat_lt
      rw [leNat, List.length_cons, pow_succ]
      omega

/-! ### Primitive readers -/

/-- The next `count` bytes. -/
def bytes (count : Nat) : Reader Bytes := fun input =>
  if count ≤ input.length then some (input.take count, input.drop count) else none

/-- The next byte. -/
def u8 : Reader UInt8
  | [] => none
  | byte :: rest => some (byte, rest)

/-- The next `width` bytes as a little-endian natural. -/
def le (width : Nat) : Reader Nat := leNat <$> bytes width

def u16 : Reader Nat := le 2

def u32 : Reader UInt32 := UInt32.ofNat <$> le 4

def u64 : Reader UInt64 := UInt64.ofNat <$> le 8

def i64 : Reader Int64 := UInt64.toInt64 <$> u64

/-- A value the program computed from bytes already read, or a failure. -/
def ofOption {α : Type} (value : Option α) : Reader α := fun input => value.map (·, input)

/-- The same reader `count` times. -/
def times {α : Type} (count : Nat) (reader : Reader α) : Reader (List α) :=
  match count with
  | 0 => pure []
  | count + 1 => do
      let head ← reader
      let tail ← times count reader
      pure (head :: tail)

/-! ### Fixed-width readers -/

/-- A reader that takes `width` bytes when it succeeds, whatever stands behind them. -/
structure Takes {α : Type} (reader : Reader α) (width : Nat) : Prop where
  length : ∀ {input rest value}, reader input = some (value, rest) → rest.length + width = input.length
  append : ∀ {input rest value}, reader input = some (value, rest) →
    ∀ more, reader (input ++ more) = some (value, rest ++ more)

namespace Takes

variable {α β : Type} {reader : Reader α} {width : Nat}

theorem pure (value : α) : Takes (pure value) 0 where
  length := by
    intro input rest value' hread
    obtain ⟨-, rfl⟩ := Prod.mk.inj (Option.some.inj hread)
    rfl
  append := by
    intro input rest value' hread more
    obtain ⟨rfl, rfl⟩ := Prod.mk.inj (Option.some.inj hread)
    rfl

theorem bytes (count : Nat) : Takes (bytes count) count where
  length := by
    intro input rest value hread
    simp only [Wire.bytes] at hread
    split at hread
    · obtain ⟨-, rfl⟩ := Prod.mk.inj (Option.some.inj hread)
      rw [List.length_drop]
      omega
    · simp at hread
  append := by
    intro input rest value hread more
    simp only [Wire.bytes] at hread ⊢
    split at hread
    · rename_i hlong
      obtain ⟨rfl, rfl⟩ := Prod.mk.inj (Option.some.inj hread)
      rw [if_pos (by rw [List.length_append]; omega), List.take_append_of_le_length hlong,
        List.drop_append_of_le_length hlong]
    · simp at hread

theorem bind {next : α → Reader β} {width' : Nat} (h : Takes reader width)
    (h' : ∀ value, Takes (next value) width') : Takes (reader >>= next) (width + width') where
  length := by
    intro input rest value hread
    obtain ⟨⟨middle, left⟩, hfirst, hsecond⟩ := Option.bind_eq_some_iff.mp hread
    have hlen := h.length hfirst
    have hlen' := (h' middle).length hsecond
    omega
  append := by
    intro input rest value hread more
    obtain ⟨⟨middle, left⟩, hfirst, hsecond⟩ := Option.bind_eq_some_iff.mp hread
    exact Option.bind_eq_some_iff.mpr ⟨_, h.append hfirst more, (h' middle).append hsecond more⟩

theorem map (f : α → β) (h : Takes reader width) : Takes (f <$> reader) width :=
  h.bind fun value => pure (f value)

end Takes

theorem u32_takes : Takes u32 4 := ((Takes.bytes 4).map _).map _

theorem u64_takes : Takes u64 8 := ((Takes.bytes 8).map _).map _

/-- What a successful read of a fixed width was given. -/
theorem eq_append_of_u32 {input rest : Bytes} {value : UInt32}
    (hread : u32 input = some (value, rest)) : input = leBytes 4 value.toNat ++ rest := by
  change ((bytes 4 input).bind _).bind _ = _ at hread
  rw [bytes] at hread
  split at hread
  · rename_i hlong
    obtain ⟨rfl, rfl⟩ := Prod.mk.inj (Option.some.inj hread)
    have hlength : (input.take 4).length = 4 := List.length_take_of_le hlong
    have hlt := leNat_lt (input.take 4)
    have hbytes := leBytes_leNat (input.take 4)
    rw [hlength] at hlt hbytes
    replace hlt : leNat (input.take 4) < 2 ^ 32 := hlt
    rw [UInt32.toNat_ofNat', Nat.mod_eq_of_lt hlt, hbytes, List.take_append_drop]
  · cases hread

theorem eq_append_of_u64 {input rest : Bytes} {value : UInt64}
    (hread : u64 input = some (value, rest)) : input = leBytes 8 value.toNat ++ rest := by
  change ((bytes 8 input).bind _).bind _ = _ at hread
  rw [bytes] at hread
  split at hread
  · rename_i hlong
    obtain ⟨rfl, rfl⟩ := Prod.mk.inj (Option.some.inj hread)
    have hlength : (input.take 8).length = 8 := List.length_take_of_le hlong
    have hlt := leNat_lt (input.take 8)
    have hbytes := leBytes_leNat (input.take 8)
    rw [hlength] at hlt hbytes
    replace hlt : leNat (input.take 8) < 2 ^ 64 := hlt
    rw [UInt64.toNat_ofNat', Nat.mod_eq_of_lt hlt, hbytes, List.take_append_drop]
  · cases hread

/-! ### What a reader can give -/

/-- Whatever the reader gives has the property. -/
structure Gives {α : Type} (reader : Reader α) (property : α → Prop) : Prop where
  holds : ∀ {input rest value}, reader input = some (value, rest) → property value

namespace Gives

variable {α β : Type} {reader : Reader α} {property : α → Prop}

theorem pure {value : α} (hvalue : property value) : Gives (pure value) property where
  holds := by
    intro input rest value' hread
    obtain ⟨rfl, -⟩ := Prod.mk.inj (Option.some.inj hread)
    exact hvalue

theorem bind {next : α → Reader β} {property' : β → Prop} (h : Gives reader property)
    (h' : ∀ value, property value → Gives (next value) property') :
    Gives (reader >>= next) property' where
  holds := by
    intro input rest value hread
    obtain ⟨⟨middle, left⟩, hfirst, hsecond⟩ := Option.bind_eq_some_iff.mp hread
    exact (h' middle (h.holds hfirst)).holds hsecond

theorem map (f : α → β) {property' : β → Prop} (h : Gives reader property)
    (h' : ∀ value, property value → property' (f value)) : Gives (f <$> reader) property' :=
  h.bind fun value hvalue => pure (h' value hvalue)

theorem any (reader : Reader α) : Gives reader fun _ => True := ⟨fun _ => trivial⟩

theorem ofOption {found : Option α} (hfound : ∀ value ∈ found, property value) :
    Gives (Wire.ofOption found) property where
  holds := by
    intro input rest value hread
    obtain ⟨found, hmem, heq⟩ := Option.map_eq_some_iff.mp hread
    obtain ⟨rfl, -⟩ := Prod.mk.inj heq
    exact hfound found hmem

theorem times (count : Nat) (h : Gives reader property) :
    Gives (Wire.times count reader) fun values =>
      values.length = count ∧ ∀ value ∈ values, property value := by
  induction count with
  | zero => exact pure ⟨rfl, by simp⟩
  | succ count ih =>
      refine h.bind fun head hhead => ih.bind fun tail htail => pure ⟨?_, ?_⟩
      · rw [List.length_cons, htail.1]
      · intro value hvalue
        rcases List.mem_cons.mp hvalue with rfl | hmem
        · exact hhead
        · exact htail.2 value hmem

theorem bytes (count : Nat) : Gives (bytes count) fun value => value.length = count where
  holds := by
    intro input rest value hread
    simp only [Wire.bytes] at hread
    split at hread
    · rename_i hlong
      obtain ⟨rfl, -⟩ := Prod.mk.inj (Option.some.inj hread)
      rw [List.length_take, Nat.min_eq_left hlong]
    · cases hread

end Gives

theorem u16_gives : Gives u16 fun value => value < 2 ^ 16 := by
  refine (Gives.bytes 2).map leNat fun value hvalue => ?_
  have hlt := leNat_lt value
  rwa [hvalue] at hlt

/-! ### Exact readers -/

/-- The reader recognizes exactly this encoding of this value: followed by anything it gives the
value and stops at the end of the encoding, and cut short anywhere it fails. -/
structure Exact {α : Type} (reader : Reader α) (encoding : Bytes) (value : α) : Prop where
  reads : ∀ rest, reader (encoding ++ rest) = some (value, rest)
  rejects : ∀ cut, cut < encoding.length → reader (encoding.take cut) = none

namespace Exact

variable {α β : Type} {reader : Reader α} {encoding : Bytes} {value : α}

theorem run_self (h : Exact reader encoding value) : reader encoding = some (value, []) := by
  simpa using h.reads []

theorem pure (value : α) : Exact (pure value) [] value where
  reads _ := rfl
  rejects cut hcut := absurd hcut (by simp)

theorem run_bind (h : Exact reader encoding value) (next : α → Reader β) (rest : Bytes) :
    (reader >>= next) (encoding ++ rest) = next value rest := by
  change (reader (encoding ++ rest)).bind (fun p => next p.1 p.2) = _
  rw [h.reads, Option.bind_some]

/-- Two exact readers in a row are exact for the concatenation. A cut falls in the first part, where
the first reader already fails, or in the second. -/
theorem bind {next : α → Reader β} {encoding' : Bytes} {value' : β}
    (h : Exact reader encoding value) (h' : Exact (next value) encoding' value') :
    Exact (reader >>= next) (encoding ++ encoding') value' where
  reads rest := by
    change (reader (encoding ++ encoding' ++ rest)).bind (fun p => next p.1 p.2) = _
    rw [List.append_assoc, h.reads, Option.bind_some, h'.reads]
  rejects cut hcut := by
    change (reader ((encoding ++ encoding').take cut)).bind (fun p => next p.1 p.2) = none
    by_cases hfirst : cut < encoding.length
    · rw [List.take_append_of_le_length (Nat.le_of_lt hfirst), h.rejects cut hfirst, Option.bind_none]
    · have hlen : (encoding ++ encoding').length = encoding.length + encoding'.length :=
        List.length_append
      rw [List.take_append, List.take_of_length_le (Nat.le_of_not_lt hfirst), h.reads,
        Option.bind_some]
      exact h'.rejects _ (by omega)

/-- What follows an exact reader may compute without reading. -/
theorem bind_nil {next : α → Reader β} {value' : β}
    (h : Exact reader encoding value) (h' : Exact (next value) [] value') :
    Exact (reader >>= next) encoding value' := by
  have hbind := h.bind h'
  rwa [List.append_nil] at hbind

theorem map (f : α → β) (h : Exact reader encoding value) :
    Exact (f <$> reader) encoding (f value) where
  reads rest := by
    change (reader (encoding ++ rest)).bind (fun p => some (f p.1, p.2)) = _
    rw [h.reads, Option.bind_some]
  rejects cut hcut := by
    change (reader (encoding.take cut)).bind (fun p => some (f p.1, p.2)) = none
    rw [h.rejects cut hcut, Option.bind_none]

theorem ofOption {found : Option α} (hfound : found = some value) :
    Exact (Wire.ofOption found) [] value where
  reads _ := by simp [Wire.ofOption, hfound]
  rejects cut hcut := absurd hcut (by simp)

/-- A reader repeated over a list of values is exact for the concatenation of their encodings. -/
theorem times {encode : α → Bytes} (values : List α)
    (h : ∀ value ∈ values, Exact reader (encode value) value) :
    Exact (Wire.times values.length reader) (values.flatMap encode) values := by
  induction values with
  | nil => exact pure []
  | cons head tail ih =>
      have htail := ih fun value hvalue => h value (List.mem_cons_of_mem _ hvalue)
      exact (h head List.mem_cons_self).bind (htail.bind_nil (pure _))

end Exact

theorem bytes_exact (encoding : Bytes) : Exact (bytes encoding.length) encoding encoding where
  reads rest := by simp [bytes]
  rejects cut hcut := by
    have hlen : (encoding.take cut).length = cut := by simp; omega
    simp only [bytes, hlen, if_neg (Nat.not_le_of_lt hcut)]

theorem bytes_exact_of_length {count : Nat} {encoding : Bytes} (hlen : encoding.length = count) :
    Exact (bytes count) encoding encoding :=
  hlen ▸ bytes_exact encoding

theorem u8_exact (byte : UInt8) : Exact u8 [byte] byte where
  reads _ := rfl
  rejects cut hcut := by
    obtain rfl : cut = 0 := by simpa using hcut
    rfl

theorem le_exact {width value : Nat} (hvalue : value < 256 ^ width) :
    Exact (le width) (leBytes width value) value := by
  have h := (bytes_exact_of_length (length_leBytes width value)).map leNat
  rwa [leNat_leBytes hvalue] at h

theorem u16_exact {value : Nat} (hvalue : value < 2 ^ 16) : Exact u16 (leBytes 2 value) value :=
  le_exact hvalue

theorem u32_exact (value : UInt32) : Exact u32 (leBytes 4 value.toNat) value := by
  have h := (le_exact (show value.toNat < 256 ^ 4 from value.toNat_lt)).map UInt32.ofNat
  rwa [UInt32.ofNat_toNat] at h

theorem u32_exact_ofNat {value : Nat} (hvalue : value < 2 ^ 32) :
    Exact u32 (leBytes 4 value) (UInt32.ofNat value) :=
  (le_exact (show value < 256 ^ 4 from hvalue)).map UInt32.ofNat

theorem u64_exact (value : UInt64) : Exact u64 (leBytes 8 value.toNat) value := by
  have h := (le_exact (show value.toNat < 256 ^ 8 from value.toNat_lt)).map UInt64.ofNat
  rwa [UInt64.ofNat_toNat] at h

theorem i64_exact (value : Int64) : Exact i64 (leBytes 8 value.toUInt64.toNat) value := by
  have h := (u64_exact value.toUInt64).map UInt64.toInt64
  rwa [show value.toUInt64.toInt64 = value from rfl] at h

end Wire
