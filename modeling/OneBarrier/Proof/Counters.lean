import OneBarrier.Proof.Access

/-!
# Counter arithmetic

The counters add in 64 bits and wrap, and a decrement adds the negated amount. What the Memcached
front-end prints is never below zero, and an amount it cannot read counts as zero.
-/

namespace OneBarrier

open Wire Input Utf8 Text Durable Rest

/-! ### Numerals -/

def InI64 (value : Int) : Prop := -2 ^ 63 ≤ value ∧ value < 2 ^ 63

instance (value : Int) : Decidable (InI64 value) := inferInstanceAs (Decidable (_ ∧ _))

/-- The integer digits with a sign, or none, stand for, however large. -/
def signed : List Char → Option Int
  | '-' :: digits => (parseDigits digits).map fun value : Nat => -(value : Int)
  | '+' :: digits => (parseDigits digits).map Nat.cast
  | digits => (parseDigits digits).map Nat.cast

def numeral (token : Bytes) : Option Int := (fromUtf8 token).bind fun text => signed text.toList

theorem bind_unsigned (digits : List Char) :
    ((parseDigits digits).bind fun value => if value < 2 ^ 63 then some (Int64.ofInt value) else none)
      = ((parseDigits digits).map Nat.cast).bind fun value : Int =>
        if InI64 value then some (Int64.ofInt value) else none := by
  cases parseDigits digits with
  | none => rfl
  | some value =>
      rw [Option.map_some, Option.bind_some, Option.bind_some]
      exact if_congr (by rw [InI64]; omega) rfl rfl

/-- A numeral is read as long as it fits. -/
theorem parseI64_eq_signed (text : List Char) :
    parseI64 text
      = (signed text).bind fun value => if InI64 value then some (Int64.ofInt value) else none := by
  unfold parseI64
  split
  · rename_i digits
    rw [signed]
    cases parseDigits digits with
    | none => rfl
    | some value =>
        rw [Option.map_some, Option.bind_some, Option.bind_some]
        exact if_congr (by rw [InI64]; omega) rfl rfl
  · rw [signed]
    exact bind_unsigned _
  · rename_i hminus hplus
    rw [signed]
    · exact bind_unsigned _
    · exact hminus
    · exact hplus

theorem parseI64_numeral (token : Bytes) :
    ((fromUtf8 token).bind fun text => parseI64 text.toList)
      = (numeral token).bind fun value => if InI64 value then some (Int64.ofInt value) else none := by
  rw [numeral]
  cases fromUtf8 token with
  | none => rfl
  | some text => exact parseI64_eq_signed text.toList

theorem toInt_ofInt {value : Int} (hvalue : InI64 value) : (Int64.ofInt value).toInt = value :=
  Int64.toInt_ofInt_of_le hvalue.1 hvalue.2

theorem inI64_toInt (value : Int64) : InI64 value.toInt := ⟨value.le_toInt, value.toInt_lt⟩

/-- A sum that fits is exact. -/
theorem toInt_add_of_inI64 {first second : Int64} (hsum : InI64 (first.toInt + second.toInt)) :
    (first + second).toInt = first.toInt + second.toInt := by
  obtain ⟨hlow, hhigh⟩ := hsum
  rw [Int64.toInt_add]
  exact Int.bmod_eq_of_le (by omega) (by omega)

theorem toInt_neg_of_ne {value : Int64} (hvalue : value.toInt ≠ -2 ^ 63) :
    (-value).toInt = -value.toInt := by
  obtain ⟨hlow, hhigh⟩ := inI64_toInt value
  rw [Int64.toInt_neg]
  exact Int.bmod_eq_of_le (by omega) (by omega)

theorem showI64_eq_iff {value : Int64} {exact : Int} (hexact : InI64 exact) :
    asBytes (showI64 value) = asBytes (toString exact) ↔ value.toInt = exact := by
  constructor
  · intro hsame
    have htext : showI64 value = showI64 (Int64.ofInt exact) := by
      rw [showI64, showI64, toInt_ofInt hexact]
      exact Option.some.inj ((fromUtf8_asBytes _).symm.trans ((congrArg fromUtf8 hsame).trans
        (fromUtf8_asBytes _)))
    have hvalue := (parseI64_showI64 value).symm.trans
      ((congrArg (fun text : String => parseI64 text.toList) htext).trans (parseI64_showI64 _))
    rw [Option.some.inj hvalue, toInt_ofInt hexact]
  · rintro rfl
    rfl

theorem toInt_max_zero_nonneg (value : Int64) : 0 ≤ (max value 0).toInt := by
  change 0 ≤ (if value ≤ 0 then 0 else value).toInt
  split
  · exact Int.le_refl 0
  · rename_i habove
    have hlt := Int64.lt_iff_toInt_lt.mp (Int64.not_le.mp habove)
    exact Int.le_of_lt hlt

theorem max_zero_of_nonneg {value : Int64} (hvalue : 0 ≤ value.toInt) : max value 0 = value := by
  change (if value ≤ 0 then 0 else value) = value
  split
  · exact Int64.toInt_inj.mp (Int.le_antisymm hvalue (Int64.le_iff_toInt_le.mp ‹_›))
  · rfl

/-! ### Counter requests -/

namespace Access

/-- The key, as the bytes of the request have it. -/
def key : Access → Bytes
  | resp args => args.getD 1 []
  | memcache command => command.parts.getD 1 []

def down : Access → Bool
  | resp args => Resp.name args = asBytes "DECR" || Resp.name args = asBytes "DECRBY"
  | memcache command => Memcache.name command.parts = asBytes "decr"

/-- The amount sent, where it is a number. -/
def amount : Access → Option Int
  | resp args =>
      if Resp.name args = asBytes "INCRBY" ∨ Resp.name args = asBytes "DECRBY" then
        args[2]?.bind numeral
      else some 1
  | memcache command => numeral (command.parts.getD 2 [])

/-- The front-end takes the request for an increment or a decrement. -/
def Counts : Access → Prop
  | resp args => Resp.isIncr (Resp.name args) = true ∧ 2 ≤ args.length
      ∧ (Resp.delta (Resp.name args) args).isSome
  | memcache command => Memcache.isIncr command.parts = true

/-- What the code reads as the amount. -/
def magnitude : Access → Int64
  | resp args =>
      (if Resp.name args = asBytes "INCRBY" ∨ Resp.name args = asBytes "DECRBY" then
        args[2]?.bind fun arg => (fromUtf8 arg).bind fun text => parseI64 text.toList
      else some 1).getD 0
  | memcache command => Memcache.parseI64 (command.parts.getD 2 [])

/-- What the code adds. -/
def delta (access : Access) : Int64 := if access.down then -access.magnitude else access.magnitude

/-- The sum or the difference, as integers. -/
def total (access : Access) (value : Int64) (amount : Int) : Int :=
  if access.down then value.toInt - amount else value.toInt + amount

def replied (result : Int) : Access → Bytes
  | resp _ => asBytes (":" ++ toString result ++ "\r\n")
  | memcache _ => asBytes (toString result ++ "\r\n")

/-- The reply is an error. -/
def Refuses (output : Bytes) : Access → Prop
  | resp _ => output.head? = some 45
  | memcache _ => ∃ word ∈ ["ERROR", "CLIENT_ERROR", "SERVER_ERROR"], asBytes word <+: output

/-- The reply and the stored value are the exact result, if there is one and it fits; otherwise the
reply is an error and the store as it was. -/
def Exact (access : Access) (value : Int64) (before after : String → Option Bytes) (output : Bytes) : Prop :=
  (∃ amount, access.amount = some amount ∧ InI64 (access.total value amount)
      ∧ output = access.replied (access.total value amount)
      ∧ after (fromUtf8Lossy access.key) = some (asBytes (toString (access.total value amount))))
    ∨ (¬ (∃ amount, access.amount = some amount ∧ InI64 (access.total value amount))
      ∧ access.Refuses output ∧ after (fromUtf8Lossy access.key) = before (fromUtf8Lossy access.key))

/-- Neither the negation nor the addition overflows. -/
def NoOverflow (access : Access) (value : Int64) : Prop :=
  (access.down = true → (-access.magnitude).toInt = -access.magnitude.toInt)
    ∧ (value + access.delta).toInt = value.toInt + access.delta.toInt

end Access

/-! ### Serving a counter request -/

theorem Resp.dispatch_incr {args : List Bytes} (hincr : isIncr (name args) = true)
    (hlong : 2 ≤ args.length) {value : Int64} (hdelta : delta (name args) args = some value)
    (client : UInt32) (seq : UInt64) :
    ∃ next, (∀ sum, next (some (.value (some sum))) = .ret (.int sum)) ∧
      dispatch args client seq
        = .apply ⟨client, seq, .incr (fromUtf8Lossy (args.getD 1 [])) value⟩ next := by
  have hother : ∀ word, isIncr word = false → (args.headD []).map asciiUpper ≠ word := by
    rintro word hword rfl
    exact absurd (hincr.symm.trans hword) (by decide)
  rw [dispatch, if_neg (hother (asBytes "PING") (by decide)),
    if_neg fun hboth => hother (asBytes "SET") (by decide) hboth.1,
    if_neg fun hboth => hother (asBytes "GET") (by decide) hboth.1, if_pos ⟨hincr, hlong⟩]
  simp only [show delta ((args.headD []).map asciiUpper) args = some value from hdelta]
  exact ⟨_, fun _ => rfl, rfl⟩

theorem Memcache.serve_incr {command : Command} (hincr : isIncr command.parts = true)
    (client : UInt32) (seq : UInt64) :
    serve client seq command
      = .apply ⟨client, seq + 1, .get (fromUtf8Lossy (Access.memcache command).key)⟩ fun out =>
          match out with
          | some (.bytes (some _)) =>
              .apply ⟨client, seq + 2, .incr (fromUtf8Lossy (Access.memcache command).key)
                (Access.memcache command).delta⟩ fun out =>
                match out with
                | some (.value (some value)) =>
                    .ret { conn := seq + 2, output := asBytes (showI64 (max value 0) ++ "\r\n") }
                | _ => .ret { conn := seq + 2, output := asBytes "ERROR\r\n" }
          | _ => .ret { conn := seq + 1, output := asBytes "NOT_FOUND\r\n" } := by
  rw [isIncr, Bool.and_eq_true, Bool.or_eq_true, decide_eq_true_eq, decide_eq_true_eq,
    decide_eq_true_eq] at hincr
  have hstorage : ¬ isStorage command.parts = true := by
    rw [isStorage]
    obtain hname | hname := hincr.1 <;> rw [hname] <;> decide
  have hget : ¬ (name command.parts = asBytes "get" ∨ name command.parts = asBytes "gets") := by
    obtain hname | hname := hincr.1 <;> rw [hname] <;> decide
  have hdelta : (Access.memcache command).delta = if name command.parts = asBytes "decr" then
      -parseI64 (command.parts.getD 2 []) else parseI64 (command.parts.getD 2 []) :=
    if_congr decide_eq_true_iff rfl rfl
  rw [serve, if_neg hstorage, if_neg hget, if_pos hincr, hdelta]
  rfl

namespace Access

variable {tick : UInt64 → UInt64} {executor : Executor} {client : UInt32} {seq : UInt64}
  {access : Access} {value : Int64}

/-- What the code replies to a sum. -/
def printed (sum : Int64) : Access → Bytes
  | resp _ => asBytes (":" ++ showI64 sum ++ "\r\n")
  | memcache _ => asBytes (showI64 (max sum 0) ++ "\r\n")

theorem delta_resp {args : List Bytes} (hcounts : (resp args).Counts) :
    Resp.delta (Resp.name args) args = some (resp args).delta := by
  have hdelta := hcounts.2.2
  have hdown : (resp args).down = true
      ↔ Resp.name args = asBytes "DECR" ∨ Resp.name args = asBytes "DECRBY" := by
    rw [down, Bool.or_eq_true, decide_eq_true_eq, decide_eq_true_eq]
  have hmagnitude : Resp.delta (Resp.name args) args = ((if Resp.name args = asBytes "INCRBY"
      ∨ Resp.name args = asBytes "DECRBY" then
        args[2]?.bind fun arg => (fromUtf8 arg).bind fun text => parseI64 text.toList
      else some 1).map fun value => if (resp args).down = true then -value else value) := by
    simp only [hdown]
    rfl
  rw [hmagnitude, Option.isSome_map] at hdelta
  obtain ⟨amount, hamount⟩ := Option.isSome_iff_exists.mp hdelta
  rw [hmagnitude, delta, magnitude, hamount]
  rfl

theorem served_of_counts (hmark : executor.engine.highWater client ≤ seq)
    (hroom : seq.toNat + 2 < 2 ^ 64) (hcounts : access.Counts)
    (hvalue : executor.engine.state.getInt (fromUtf8Lossy access.key) = some value) :
    let served := (access.serve client seq).run (Executor.apply tick) Executor.len executor
    served.2.output = access.printed (value + access.delta)
      ∧ view served.1.engine.state (fromUtf8Lossy access.key)
        = some (asBytes (showI64 (value + access.delta))) := by
  have hone : (seq + 1).toNat = seq.toNat + 1 :=
    (UInt64.toNat_add seq 1).trans (Nat.mod_eq_of_lt (by change seq.toNat + 1 < 2 ^ 64; omega))
  have htwo : (seq + 2).toNat = seq.toNat + 2 :=
    (UInt64.toNat_add seq 2).trans (Nat.mod_eq_of_lt hroom)
  have hfresh : executor.engine.highWater client < seq + 1 := by
    rw [UInt64.le_iff_toNat_le] at hmark
    rw [UInt64.lt_iff_toNat_lt]
    omega
  -- the increment itself, from a state in which it is new
  have hincr : ∀ {executor : Executor} {number : UInt64},
      executor.engine.state.getInt (fromUtf8Lossy access.key) = some value →
      executor.engine.highWater client < number →
      let op : Op := ⟨client, number, .incr (fromUtf8Lossy access.key) access.delta⟩
      (executor.apply tick op).2 = some (.value (some (value + access.delta)))
        ∧ view (executor.apply tick op).1.engine.state (fromUtf8Lossy access.key)
          = some (asBytes (showI64 (value + access.delta))) := by
    intro executor number hvalue hfresh op
    rw [Executor.answer_apply, Executor.state_apply, if_pos hfresh, if_pos hfresh]
    simp only [op, KvStore.apply, hvalue, Option.getD_some, view_insert, Function.update_self,
      and_self]
  cases access with
  | resp args =>
      obtain ⟨hname, hlong, -⟩ := id hcounts
      have hquit : Resp.name args ≠ asBytes "QUIT" := fun hquit => by
        rw [hquit] at hname
        exact absurd hname (by decide)
      obtain ⟨hanswer, hstate⟩ := hincr hvalue hfresh
      obtain ⟨next, hnext, hdispatch⟩ :=
        Resp.dispatch_incr hname hlong (delta_resp hcounts) client (seq + 1)
      have hrun : (Conv.apply ⟨client, seq + 1, .incr (fromUtf8Lossy (args.getD 1 []))
            (resp args).delta⟩ next).run (Executor.apply tick) Executor.len executor
          = ((executor.apply tick ⟨client, seq + 1, .incr (fromUtf8Lossy (resp args).key)
              (resp args).delta⟩).1, .int (value + (resp args).delta)) := by
        rw [Conv.run, show args.getD 1 [] = (resp args).key from rfl, hanswer, hnext]
        rfl
      rw [serve, Resp.serve_of_not_quit hquit, hdispatch]
      dsimp only
      rw [Conv.run_bind, hrun]
      exact ⟨rfl, hstate⟩
  | memcache command =>
      have hget : (executor.apply tick ⟨client, seq + 1, .get (fromUtf8Lossy
          (memcache command).key)⟩).2
          = some (.bytes (view executor.engine.state (fromUtf8Lossy (memcache command).key))) := by
        rw [Executor.answer_apply, if_pos hfresh]
        rfl
      have hsame : (executor.apply tick ⟨client, seq + 1, .get (fromUtf8Lossy
          (memcache command).key)⟩).1.engine.state = executor.engine.state := by
        rw [Executor.state_apply, if_pos hfresh]
        rfl
      have hlater : (executor.apply tick ⟨client, seq + 1, .get (fromUtf8Lossy
          (memcache command).key)⟩).1.engine.highWater client < seq + 2 := by
        rw [Executor.highWater_apply, if_pos ⟨hfresh, rfl⟩, UInt64.lt_iff_toNat_lt]
        change (seq + 1).toNat < _
        omega
      obtain ⟨hanswer, hstate⟩ := hincr (hsame.symm ▸ hvalue) hlater
      obtain ⟨stored, hstored⟩ : ∃ stored,
          view executor.engine.state (fromUtf8Lossy (memcache command).key) = some stored := by
        refine Option.isSome_iff_exists.mp (Option.isSome_iff_ne_none.mpr fun hnone => ?_)
        rw [KvStore.getInt, show executor.engine.state.map[_]? = none from hnone] at hvalue
        cases hvalue
      rw [hstored] at hget
      have hrun : (Memcache.serve client seq command).run (Executor.apply tick) Executor.len executor
          = (((executor.apply tick ⟨client, seq + 1, .get (fromUtf8Lossy
              (memcache command).key)⟩).1.apply tick ⟨client, seq + 2, .incr (fromUtf8Lossy
              (memcache command).key) (memcache command).delta⟩).1,
            { conn := seq + 2
              output := asBytes (showI64 (max (value + (memcache command).delta) 0) ++ "\r\n") }) := by
        rw [Memcache.serve_incr hcounts, Conv.run, hget]
        dsimp only
        rw [Conv.run, hanswer]
        rfl
      rw [serve, hrun]
      dsimp only
      rw [printed]
      exact ⟨rfl, hstate⟩

theorem magnitude_of_amount {amount : Int} (hamount : access.amount = some amount)
    (hfits : InI64 amount) : access.magnitude.toInt = amount := by
  have hread : ∀ token, numeral token = some amount →
      ((fromUtf8 token).bind fun text => parseI64 text.toList) = some (Int64.ofInt amount) := by
    intro token htoken
    rw [parseI64_numeral, htoken, Option.bind_some, if_pos hfits]
  cases access with
  | resp args =>
      rw [Access.amount] at hamount
      rw [magnitude]
      split at hamount
      · obtain ⟨token, harg, htoken⟩ := Option.bind_eq_some_iff.mp hamount
        rw [if_pos ‹_›, harg, Option.bind_some, hread token htoken, Option.getD_some, toInt_ofInt hfits]
      · obtain rfl : (1 : Int) = amount := Option.some.inj hamount
        rw [if_neg ‹_›]
        rfl
  | memcache command =>
      rw [magnitude, Memcache.parseI64, hread _ hamount, Option.getD_some, toInt_ofInt hfits]

/-- What is printed is no error message. -/
theorem not_refuses_printed (sum : Int64) : ¬ access.Refuses (access.printed sum) := by
  cases access with
  | resp args =>
      intro hrefuses
      rw [Refuses, printed, asBytes_append, asBytes_append] at hrefuses
      exact absurd (show (some 58 : Option UInt8) = some 45 from hrefuses) (by decide)
  | memcache command =>
      rintro ⟨word, hword, hprefix⟩
      -- every error message has an `R`
      have hmem : (82 : UInt8) ∈ asBytes word := by
        rw [List.mem_cons, List.mem_cons, List.mem_singleton] at hword
        obtain rfl | rfl | rfl := hword <;> decide
      have hnumber := @notMem_asBytes 82 (by decide) (showI64 (max sum 0)).toList fun hchar => by
        obtain hdigit | hminus := mem_showI64 hchar
        · exact absurd hdigit (by decide)
        · exact absurd hminus (by decide)
      rw [String.ofList_toList] at hnumber
      have hprinted := hprefix.subset hmem
      rw [printed, asBytes_append, List.mem_append] at hprinted
      exact hprinted.elim hnumber (by decide)

theorem toInt_delta (hnegate : access.down = true →
      (-access.magnitude).toInt = -access.magnitude.toInt) :
    value.toInt + access.delta.toInt = access.total value access.magnitude.toInt := by
  rw [delta, total]
  split
  · rw [hnegate ‹_›, Int.sub_eq_add_neg]
  · rfl

end Access

open Access in
/-- **Counter arithmetic.** A request of a new seq for a key that holds an integer is answered with
the exact result, and stores it, without an overflow, exactly if the amount is a 64-bit integer, it is
not the least one taken away, the result is a 64-bit integer, and a Memcached result is not negative. -/
theorem counter_exact_iff (tick : UInt64 → UInt64) (executor : Executor) {client : UInt32}
    {seq : UInt64} (hmark : executor.engine.highWater client ≤ seq) (hroom : seq.toNat + 2 < 2 ^ 64)
    {access : Access} (hcounts : access.Counts) {value : Int64}
    (hvalue : executor.engine.state.getInt (fromUtf8Lossy access.key) = some value) :
    let served := (access.serve client seq).run (Executor.apply tick) Executor.len executor
    (access.Exact value (view executor.engine.state) (view served.1.engine.state) served.2.output
        ∧ access.NoOverflow value ∧ ∀ op, (served.1.apply tick op).2.isSome)
      ↔ ∃ amount, access.amount = some amount ∧ InI64 amount
        ∧ ¬ (access.down = true ∧ amount = -2 ^ 63) ∧ InI64 (access.total value amount)
        ∧ (access.app = .memcache → 0 ≤ access.total value amount) := by
  intro served
  obtain ⟨houtput, hstored⟩ := served_of_counts hmark hroom hcounts hvalue
  constructor
  · rintro ⟨hexact, ⟨hnegate, hadd⟩, -⟩
    obtain ⟨amount, hamount, hfits, hreply, hafter⟩ | ⟨-, hrefuses, -⟩ := hexact
    · have hsum : (value + access.delta).toInt = access.total value amount :=
        (showI64_eq_iff hfits).mp (Option.some.inj (hstored.symm.trans hafter))
      have hmagnitude : access.magnitude.toInt = amount := by
        have hsame := (hadd.trans (toInt_delta hnegate)).symm.trans hsum
        rw [total, total] at hsame
        split at hsame <;> omega
      refine ⟨amount, hamount, hmagnitude ▸ inI64_toInt _, ?_, hfits, fun happ => ?_⟩
      · rintro ⟨hdown, hleast⟩
        have hbound := (-access.magnitude).toInt_lt
        rw [hnegate hdown, hmagnitude, hleast] at hbound
        exact absurd hbound (by decide)
      · cases access with
        | resp args => cases happ
        | memcache command =>
            have hprinted := houtput.symm.trans hreply
            rw [printed, replied, asBytes_append, asBytes_append] at hprinted
            have hmax := (showI64_eq_iff hfits).mp (List.append_cancel_right hprinted)
            exact hmax ▸ toInt_max_zero_nonneg _
    · exact absurd (houtput ▸ hrefuses) (not_refuses_printed _)
  · rintro ⟨amount, hamount, hfits, hleast, htotal, hsign⟩
    have hmagnitude := magnitude_of_amount hamount hfits
    have hnegate : access.down = true → (-access.magnitude).toInt = -access.magnitude.toInt :=
      fun hdown => toInt_neg_of_ne fun hmin => hleast ⟨hdown, hmagnitude.symm.trans hmin⟩
    have hdelta := @toInt_delta access value hnegate
    rw [hmagnitude] at hdelta
    have hadd : (value + access.delta).toInt = value.toInt + access.delta.toInt :=
      toInt_add_of_inI64 (hdelta ▸ htotal)
    have hsum := hadd.trans hdelta
    refine ⟨.inl ⟨amount, hamount, htotal, ?_, ?_⟩, ⟨hnegate, hadd⟩, fun op => ?_⟩
    · refine houtput.trans ?_
      cases access with
      | resp args => rw [printed, replied, showI64, hsum]
      | memcache command =>
          rw [printed, replied, max_zero_of_nonneg (hsum ▸ hsign rfl), showI64, hsum]
    · rw [← hsum]
      exact hstored
    · rw [Executor.answer_apply]
      rfl

/-- One connection has stored `n` as the largest counter there is. -/
def full : Executor := fresh.applyAll id [⟨1, 1, .set "n" (asBytes "9223372036854775807")⟩]

/-- `DECRBY n 7` on the largest counter. -/
theorem counter_exact_decrby :
    let access := Access.resp [asBytes "DECRBY", asBytes "n", asBytes "7"]
    let served := (access.serve 2 0).run (Executor.apply id) Executor.len full
    (access.Exact Int64.maxValue (view full.engine.state) (view served.1.engine.state) served.2.output
        ∧ access.NoOverflow Int64.maxValue ∧ ∀ op, (served.1.apply id op).2.isSome)
      ↔ ∃ amount, access.amount = some amount ∧ InI64 amount
        ∧ ¬ (access.down = true ∧ amount = -2 ^ 63) ∧ InI64 (access.total Int64.maxValue amount)
        ∧ (access.app = .memcache → 0 ≤ access.total Int64.maxValue amount) :=
  counter_exact_iff id full (by decide +kernel) (by decide)
    (show (Access.resp [asBytes "DECRBY", asBytes "n", asBytes "7"]).Counts from
      ⟨by decide, by decide, by decide⟩)
    (by decide +kernel)

/-- `INCR n` on the largest counter answers the least, and stores it. -/
theorem incr_wraps :
    let access := Access.resp [asBytes "INCR", asBytes "n"]
    let served := (access.serve 2 0).run (Executor.apply id) Executor.len full
    full.engine.state.getInt "n" = some Int64.maxValue
      ∧ served.2.output = asBytes ":-9223372036854775808\r\n"
      ∧ view served.1.engine.state "n" = some (asBytes "-9223372036854775808")
      ∧ ¬ access.Exact Int64.maxValue (view full.engine.state) (view served.1.engine.state)
        served.2.output := by
  refine ⟨by decide +kernel, by decide +kernel, by decide +kernel, ?_⟩
  rintro (⟨amount, hamount, hfits, -⟩ | ⟨-, hrefuses, -⟩)
  · obtain rfl : (1 : Int) = amount := Option.some.inj hamount
    exact absurd hfits (by decide)
  · exact absurd hrefuses (by change ¬ _ = some (45 : UInt8); decide +kernel)

end OneBarrier
