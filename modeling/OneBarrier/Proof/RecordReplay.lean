import OneBarrier.RecordReplay

/-!
# Replaying what was recorded

In a replay that never diverges every call takes one entry. A random call that returned nothing has
left none, so from it on there are fewer entries than calls and one of them diverges; and a clock
call that failed is answered as one that succeeded. All other recordings are returned as they are.
-/

namespace OneBarrier.Interpose

open Wire

/-! ### One entry -/

/-- The type byte of a call's entry. -/
def Query.tag : Query → UInt8
  | gettimeofday => 1
  | clockGettime => 2
  | time => 4
  | getrandom _ => 3

theorem Query.eq_of_tag {first second : Query} (htag : first.tag = second.tag) :
    first = second ∨ ∃ len len', first = .getrandom len ∧ second = .getrandom len' := by
  cases first <;> cases second <;> simp [tag] at htag ⊢

namespace Replayer

variable {done rest data : Bytes} {tag : UInt8} {diverged : Nat}

theorem replayFixed_of_ne {replayer : Replayer} (len : Nat)
    (htag : replayer.buf[replayer.cursor]? ≠ some tag) :
    replayer.replayFixed tag len = (none, replayer.diverge) :=
  if_neg fun hfits => htag hfits.2

theorem replayRandom_of_ne {replayer : Replayer} (len : Nat)
    (htag : replayer.buf[replayer.cursor]? ≠ some 3) :
    replayer.replayRandom len = (none, replayer.diverge) :=
  if_neg fun hfits => htag hfits.2

/-- An entry of another type is not taken. -/
theorem replay_of_ne {replayer : Replayer} {query : Query} (kernel : Returned)
    (htag : replayer.buf[replayer.cursor]? ≠ some query.tag) :
    replayer.replay query kernel = (kernel, replayer.diverge) := by
  cases query with
  | gettimeofday | clockGettime | time =>
      simp only [Query.tag] at htag
      rw [replay, replayFixed_of_ne _ htag]
  | getrandom len => rw [replay, replayRandom_of_ne _ htag]

theorem getElem?_done (tail : Bytes) : (done ++ tag :: tail)[done.length]? = some tag := by
  rw [List.getElem?_append_right (Nat.le_refl _), Nat.sub_self, List.getElem?_cons_zero]

theorem drop_done (tail : Bytes) : (done ++ tag :: tail).drop (done.length + 1) = tail := by
  rw [← List.drop_drop, List.drop_left, List.drop_one, List.tail_cons]

theorem replayFixed_entry :
    replayFixed ⟨done ++ tag :: (data ++ rest), done.length, diverged⟩ tag data.length
      = (some data, ⟨done ++ tag :: (data ++ rest), done.length + (data.length + 1), diverged⟩) := by
  rw [replayFixed, if_pos, drop_done, List.take_left, Nat.add_comm 1]
  refine ⟨?_, getElem?_done _⟩
  dsimp only
  rw [List.length_append, List.length_cons, List.length_append]
  omega

theorem replayRandom_entry (hdata : data.length < 2 ^ 32) (len : Nat) :
    replayRandom ⟨done ++ 3 :: (leBytes 4 data.length ++ (data ++ rest)), done.length, diverged⟩ len
      = (some (data.take len), ⟨done ++ 3 :: (leBytes 4 data.length ++ (data ++ rest)),
          done.length + (5 + data.length), diverged⟩) := by
  have hlength : (leBytes 4 data.length).length = 4 := length_leBytes 4 _
  have htake : (leBytes 4 data.length ++ (data ++ rest)).take 4 = leBytes 4 data.length :=
    List.take_left' hlength
  have hrecorded : leNat (leBytes 4 data.length) = data.length := leNat_leBytes hdata
  have hrest : (done ++ 3 :: (leBytes 4 data.length ++ (data ++ rest))).drop (done.length + 5)
      = data ++ rest := by
    rw [show done.length + 5 = (done.length + 1) + 4 from rfl, ← List.drop_drop, drop_done]
    exact List.drop_left' hlength
  have htotal : (done ++ 3 :: (leBytes 4 data.length ++ (data ++ rest))).length
      = done.length + 5 + data.length + rest.length := by
    rw [List.length_append, List.length_cons, List.length_append, hlength, List.length_append]
    omega
  have hcut : (data ++ rest).take (min data.length len) = data.take len := by
    rw [Nat.min_comm, ← List.take_take, List.take_left]
  rw [replayRandom, if_pos ⟨by dsimp only; omega, getElem?_done _⟩]
  dsimp only
  rw [drop_done, htake, hrecorded, if_pos (by omega), hrest, hcut]

/-- The replayer once it has taken `width` bytes. -/
def skip (replayer : Replayer) (width : Nat) : Replayer :=
  { replayer with cursor := replayer.cursor + width }

theorem replay_gettimeofday (hdata : data.length = 16) (kernel : Returned) :
    replay ⟨done ++ 1 :: (data ++ rest), done.length, diverged⟩ .gettimeofday kernel
      = (⟨0, data⟩, skip ⟨done ++ 1 :: (data ++ rest), done.length, diverged⟩ (data.length + 1)) := by
  rw [replay, ← hdata, replayFixed_entry]
  rfl

theorem replay_clockGettime (hdata : data.length = 16) (kernel : Returned) :
    replay ⟨done ++ 2 :: (data ++ rest), done.length, diverged⟩ .clockGettime kernel
      = (⟨0, data⟩, skip ⟨done ++ 2 :: (data ++ rest), done.length, diverged⟩ (data.length + 1)) := by
  rw [replay, ← hdata, replayFixed_entry]
  rfl

theorem replay_time (seconds : Int64) (kernel : Returned) :
    replay ⟨done ++ 4 :: (longLong seconds ++ rest), done.length, diverged⟩ .time kernel
      = (⟨seconds, longLong seconds⟩,
          skip ⟨done ++ 4 :: (longLong seconds ++ rest), done.length, diverged⟩
            ((longLong seconds).length + 1)) := by
  have hlength : (longLong seconds).length = 8 := length_leBytes 8 _
  have hread : i64 (longLong seconds) = some (seconds, []) := (i64_exact seconds).run_self
  rw [replay, ← hlength, replayFixed_entry]
  dsimp only
  rw [hread]
  rfl

theorem replay_getrandom (hdata : data.length < 2 ^ 32) (len : Nat) (kernel : Returned) :
    replay ⟨done ++ 3 :: (leBytes 4 data.length ++ (data ++ rest)), done.length, diverged⟩
        (.getrandom len) kernel
      = (⟨Int64.ofNat (data.take len).length, data.take len⟩,
          skip ⟨done ++ 3 :: (leBytes 4 data.length ++ (data ++ rest)), done.length, diverged⟩
            (5 + data.length)) := by
  rw [replay, replayRandom_entry hdata]
  rfl

end Replayer

/-! ### One call -/

namespace Exchange

variable {exchange : Exchange} {done rest : Bytes} {diverged : Nat}

/-- What the call leaves in the file. -/
def entry (exchange : Exchange) : Bytes := exchange.query.record exchange.recorded

theorem entry_random {len : Nat} {recorded again : Returned}
    (hkernel : (⟨.getrandom len, recorded, again⟩ : Exchange).Kernel) :
    if 0 < recorded.result then
      entry ⟨.getrandom len, recorded, again⟩ = 3 :: (leBytes 4 recorded.data.length ++ recorded.data)
        ∧ recorded.result.toInt = recorded.data.length
        ∧ recorded.data.length ≤ len ∧ recorded.data.length < 2 ^ 31
    else entry ⟨.getrandom len, recorded, again⟩ = [] := by
  simp only [entry, Query.record]
  split
  · rename_i hpos
    obtain ⟨hfailed, -⟩ | ⟨hlength, hfits, hshort⟩ := hkernel
    · exact absurd hpos (by rw [hfailed]; decide)
    · rw [hlength, Int.toNat_natCast]
      exact ⟨rfl, rfl, hfits, hshort⟩
  · rfl

/-- The entry begins with the type of its call. -/
theorem entry_tag (hentry : exchange.entry ≠ []) : ∃ tail, exchange.entry = exchange.query.tag :: tail := by
  obtain ⟨query, recorded, again⟩ := exchange
  cases query with
  | gettimeofday | clockGettime | time => exact ⟨_, rfl⟩
  | getrandom len =>
      simp only [entry, Query.record] at hentry ⊢
      split at hentry
      · rename_i hpos
        exact ⟨_, if_pos hpos⟩
      · exact absurd rfl hentry

theorem length_random (data : Bytes) :
    (3 :: (leBytes 4 data.length ++ data)).length = 5 + data.length := by
  rw [List.length_cons, List.length_append, length_leBytes]
  omega

/-- A call of the entry's type takes the whole entry. -/
theorem replay_entry (hkernel : exchange.Kernel) (hentry : exchange.entry ≠ []) {query : Query}
    (htag : query.tag = exchange.query.tag) (kernel : Returned) :
    ((⟨done ++ (exchange.entry ++ rest), done.length, diverged⟩ : Replayer).replay query kernel).2
      = Replayer.skip ⟨done ++ (exchange.entry ++ rest), done.length, diverged⟩
          exchange.entry.length := by
  obtain ⟨kind, recorded, again⟩ := exchange
  cases kind with
  | gettimeofday =>
      obtain rfl | ⟨len, len', -, habsurd⟩ := Query.eq_of_tag htag
      · exact congrArg Prod.snd (Replayer.replay_gettimeofday hkernel kernel)
      · cases habsurd
  | clockGettime =>
      obtain rfl | ⟨len, len', -, habsurd⟩ := Query.eq_of_tag htag
      · exact congrArg Prod.snd (Replayer.replay_clockGettime hkernel kernel)
      · cases habsurd
  | time =>
      obtain rfl | ⟨len, len', -, habsurd⟩ := Query.eq_of_tag htag
      · obtain ⟨seconds, data⟩ := recorded
        obtain rfl : data = longLong seconds := hkernel
        exact congrArg Prod.snd (Replayer.replay_time seconds kernel)
      · cases habsurd
  | getrandom len =>
      obtain ⟨len', rfl⟩ : ∃ len', query = .getrandom len' := by
        obtain rfl | ⟨len', -, rfl, -⟩ := Query.eq_of_tag htag
        exacts [⟨len, rfl⟩, ⟨len', rfl⟩]
      have hshape := entry_random hkernel
      split at hshape
      · obtain ⟨hentry, -, -, hshort⟩ := hshape
        rw [hentry, length_random, List.cons_append, List.append_assoc]
        exact congrArg Prod.snd (Replayer.replay_getrandom (by omega) len' kernel)
      · exact absurd hshape hentry

/-- **A call that succeeded is answered as it was.** -/
theorem replay_succeeded (hkernel : exchange.Kernel) (hsucceeded : exchange.Succeeded) :
    (⟨done ++ (exchange.entry ++ rest), done.length, diverged⟩ : Replayer).replay exchange.query
        exchange.again
      = (exchange.recorded, Replayer.skip ⟨done ++ (exchange.entry ++ rest), done.length, diverged⟩
          exchange.entry.length) := by
  obtain ⟨query, recorded, again⟩ := exchange
  obtain ⟨result, data⟩ := recorded
  cases query with
  | gettimeofday =>
      obtain rfl : result = 0 := hsucceeded
      exact Replayer.replay_gettimeofday hkernel again
  | clockGettime =>
      obtain rfl : result = 0 := hsucceeded
      exact Replayer.replay_clockGettime hkernel again
  | time =>
      obtain rfl : data = longLong result := hkernel
      exact Replayer.replay_time result again
  | getrandom len =>
      have hshape := entry_random hkernel
      have hpos : 0 < result := hsucceeded
      rw [if_pos hpos] at hshape
      obtain ⟨hentry, hresult, hfits, hshort⟩ := hshape
      have hlength : Int64.ofNat data.length = result := by
        rw [← Int64.toInt_inj, hresult]
        exact Int64.toInt_ofNat_of_lt (Nat.lt_trans hshort (by decide))
      have hdata : data.length < 2 ^ 32 := Nat.lt_trans hshort (by decide)
      have hreplay := @Replayer.replay_getrandom done rest data diverged hdata len again
      rw [List.take_of_length_le hfits, hlength] at hreplay
      rw [hentry, length_random, List.cons_append, List.append_assoc]
      exact hreplay

/-- A call that left an entry and is answered as it was has succeeded. -/
theorem succeeded_of_replay (hkernel : exchange.Kernel) (hentry : exchange.entry ≠ [])
    (hreplay : ((⟨done ++ (exchange.entry ++ rest), done.length, diverged⟩ : Replayer).replay
      exchange.query exchange.again).1 = exchange.recorded) : exchange.Succeeded := by
  obtain ⟨query, recorded, again⟩ := exchange
  cases query with
  | gettimeofday =>
      have hzero := congrArg Prod.fst
        (@Replayer.replay_gettimeofday done rest recorded.data diverged hkernel again)
      exact congrArg Returned.result (hreplay.symm.trans hzero)
  | clockGettime =>
      have hzero := congrArg Prod.fst
        (@Replayer.replay_clockGettime done rest recorded.data diverged hkernel again)
      exact congrArg Returned.result (hreplay.symm.trans hzero)
  | time => trivial
  | getrandom len =>
      have hshape := entry_random hkernel
      split at hshape
      · assumption
      · exact absurd hshape hentry

end Exchange

/-! ### Whole runs -/

theorem diverged_replay_le (replayer : Replayer) (query : Query) (kernel : Returned) :
    replayer.diverged ≤ (replayer.replay query kernel).2.diverged := by
  have hfixed : ∀ tag len, replayer.diverged ≤ (replayer.replayFixed tag len).2.diverged := by
    intro tag len
    rw [Replayer.replayFixed]
    split
    exacts [Nat.le_refl _, Nat.le_succ _]
  have hrandom : ∀ len, replayer.diverged ≤ (replayer.replayRandom len).2.diverged := by
    intro len
    rw [Replayer.replayRandom]
    split
    · dsimp only
      split
      exacts [Nat.le_refl _, Nat.le_succ _]
    · exact Nat.le_succ _
  cases query with
  | gettimeofday =>
      have hle := hfixed 1 16
      rw [Replayer.replay]
      split <;> simp_all
  | clockGettime =>
      have hle := hfixed 2 16
      rw [Replayer.replay]
      split <;> simp_all
  | time =>
      have hle := hfixed 4 8
      rw [Replayer.replay]
      split <;> simp_all
  | getrandom len =>
      have hle := hrandom len
      rw [Replayer.replay]
      split <;> simp_all

theorem diverged_replayAll_le (replayer : Replayer) (exchanges : List Exchange) :
    replayer.diverged ≤ (replayAll replayer exchanges).2.diverged := by
  induction exchanges generalizing replayer with
  | nil => exact Nat.le_refl _
  | cons exchange later ih =>
      exact Nat.le_trans (diverged_replay_le replayer exchange.query exchange.again) (ih _)

/-- **Without a divergence there are as many entries as calls.** -/
theorem length_le_of_not_diverged {exchanges entries : List Exchange} {done : Bytes}
    {diverged : Nat} (hentries : ∀ entry ∈ entries, entry.Kernel ∧ entry.entry ≠ [])
    (hdiverged : (replayAll ⟨done ++ entries.flatMap Exchange.entry, done.length, diverged⟩
      exchanges).2.diverged ≤ diverged) : exchanges.length ≤ entries.length := by
  induction exchanges generalizing entries done with
  | nil => exact Nat.zero_le _
  | cons exchange later ih =>
      -- a call that finds no entry of its type raises the count, which never falls again
      have hcount : ∀ replayer : Replayer, replayer.diverged = diverged →
          replayer.buf[replayer.cursor]? ≠ some exchange.query.tag →
          ¬ (replayAll replayer (exchange :: later)).2.diverged ≤ diverged := by
        intro replayer hstart htag hle
        have hlater := diverged_replayAll_le (replayer.replay exchange.query exchange.again).2 later
        rw [Replayer.replay_of_ne _ htag] at hlater
        have hraised : replayer.diverged + 1 ≤ diverged := Nat.le_trans hlater (by
          rw [replayAll, Replayer.replay_of_ne _ htag] at hle
          exact hle)
        omega
      cases entries with
      | nil =>
          refine absurd hdiverged (hcount _ rfl ?_)
          simp
      | cons entry entries =>
          obtain ⟨hkernel, hnonempty⟩ := hentries entry List.mem_cons_self
          rw [List.flatMap_cons] at hdiverged
          by_cases htag : exchange.query.tag = entry.query.tag
          · have hnext := @Exchange.replay_entry entry done (entries.flatMap Exchange.entry) diverged
              hkernel hnonempty exchange.query htag exchange.again
            refine Nat.succ_le_succ (@ih entries (done ++ entry.entry)
              (fun other hmem => hentries other (List.mem_cons_of_mem entry hmem)) ?_)
            rw [replayAll] at hdiverged
            dsimp only at hdiverged
            rw [hnext, Replayer.skip] at hdiverged
            rw [List.append_assoc, List.length_append]
            exact hdiverged
          · refine absurd hdiverged (hcount _ rfl ?_)
            obtain ⟨tail, htail⟩ := Exchange.entry_tag hnonempty
            dsimp only
            rw [htail, List.cons_append, Replayer.getElem?_done]
            exact fun heq => htag (Option.some.inj heq).symm

theorem replayAll_succeeded {exchanges : List Exchange} {done : Bytes} {diverged : Nat}
    (hkernel : ∀ exchange ∈ exchanges, exchange.Kernel)
    (hsucceeded : ∀ exchange ∈ exchanges, exchange.Succeeded) :
    (replayAll ⟨done ++ recording exchanges, done.length, diverged⟩ exchanges).1
        = exchanges.map Exchange.recorded
      ∧ (replayAll ⟨done ++ recording exchanges, done.length, diverged⟩ exchanges).2.diverged
        = diverged := by
  induction exchanges generalizing done with
  | nil => exact ⟨rfl, rfl⟩
  | cons exchange later ih =>
      have hreplay := @Exchange.replay_succeeded exchange done (recording later) diverged
        (hkernel exchange List.mem_cons_self) (hsucceeded exchange List.mem_cons_self)
      obtain ⟨hreturned, hcount⟩ := @ih (done ++ exchange.entry)
        (fun other hmem => hkernel other (List.mem_cons_of_mem exchange hmem))
        (fun other hmem => hsucceeded other (List.mem_cons_of_mem exchange hmem))
      rw [List.append_assoc, List.length_append] at hreturned hcount
      rw [show recording (exchange :: later) = exchange.entry ++ recording later from rfl, replayAll]
      dsimp only
      rw [hreplay]
      exact ⟨congrArg (exchange.recorded :: ·) hreturned, hcount⟩

/-- With an entry for every call, the calls that are answered as they were have succeeded. -/
theorem succeeded_of_replayAll {exchanges : List Exchange} {done : Bytes} {diverged : Nat}
    (hkernel : ∀ exchange ∈ exchanges, exchange.Kernel)
    (hentries : ∀ exchange ∈ exchanges, exchange.entry ≠ [])
    (hreturned : (replayAll ⟨done ++ recording exchanges, done.length, diverged⟩ exchanges).1
      = exchanges.map Exchange.recorded) : ∀ exchange ∈ exchanges, exchange.Succeeded := by
  induction exchanges generalizing done with
  | nil => exact fun exchange hmem => absurd hmem List.not_mem_nil
  | cons exchange later ih =>
      have hfirst := hkernel exchange List.mem_cons_self
      have hentry := hentries exchange List.mem_cons_self
      have hnext := @Exchange.replay_entry exchange done (recording later) diverged hfirst hentry
        exchange.query rfl exchange.again
      rw [show recording (exchange :: later) = exchange.entry ++ recording later from rfl, replayAll,
        List.map_cons] at hreturned
      obtain ⟨hhead, htail⟩ := List.cons.inj hreturned
      rw [hnext, Replayer.skip] at htail
      rw [List.forall_mem_cons]
      refine ⟨Exchange.succeeded_of_replay hfirst hentry hhead, ?_⟩
      refine @ih (done ++ exchange.entry)
        (fun other hmem => hkernel other (List.mem_cons_of_mem exchange hmem))
        (fun other hmem => hentries other (List.mem_cons_of_mem exchange hmem)) ?_
      rw [List.append_assoc, List.length_append]
      exact htail

/-- **Record and replay.** On the file of a recording run, whatever the kernel would say, the same
calls return what they returned and none diverges, exactly if every clock call had succeeded and
every random call had returned at least one byte. -/
theorem replay_returns_iff {exchanges : List Exchange}
    (hkernel : ∀ exchange ∈ exchanges, exchange.Kernel) :
    ((replayAll { buf := recording exchanges } exchanges).1 = exchanges.map Exchange.recorded
        ∧ (replayAll { buf := recording exchanges } exchanges).2.diverged = 0)
      ↔ ∀ exchange ∈ exchanges, exchange.Succeeded := by
  constructor
  · rintro ⟨hreturned, hdiverged⟩
    let entries := exchanges.filter fun exchange => exchange.entry ≠ []
    have hrecording : recording exchanges = entries.flatMap Exchange.entry := by
      have hmap : entries.map Exchange.entry = (exchanges.map Exchange.entry).filter (· ≠ []) := by
        rw [List.filter_map]
        rfl
      rw [List.flatMap_def, hmap, List.flatten_filter_ne_nil, ← List.flatMap_def]
      rfl
    have hlength : exchanges.length ≤ entries.length := by
      refine @length_le_of_not_diverged exchanges entries [] 0 ?_ ?_
      · intro entry hmem
        obtain ⟨hmem, hnonempty⟩ := List.mem_filter.mp hmem
        exact ⟨hkernel entry hmem, of_decide_eq_true hnonempty⟩
      · rw [List.nil_append, ← hrecording]
        exact Nat.le_of_eq hdiverged
    have hall : entries = exchanges := List.filter_sublist.eq_of_length_le hlength
    refine @succeeded_of_replayAll exchanges [] 0 hkernel ?_ hreturned
    intro exchange hmem
    rw [← hall] at hmem
    exact of_decide_eq_true (List.mem_filter.mp hmem).2
  · exact @replayAll_succeeded exchanges [] 0 hkernel

/-- A clock call, two random calls of which the first comes back short, and the time. -/
def clockAndRandom : List Exchange :=
  [⟨.clockGettime, ⟨0, longLong 7 ++ longLong 500⟩, ⟨0, longLong 9 ++ longLong 0⟩⟩,
    ⟨.getrandom 8, ⟨2, [161, 178]⟩, ⟨8, longLong 3⟩⟩,
    ⟨.getrandom 1, ⟨1, [195]⟩, ⟨1, [0]⟩⟩,
    ⟨.time, ⟨7, longLong 7⟩, ⟨9, longLong 9⟩⟩]

theorem replay_returns_clockAndRandom :
    (∀ exchange ∈ clockAndRandom, exchange.Kernel)
      ∧ (replayAll { buf := recording clockAndRandom } clockAndRandom).1
        = clockAndRandom.map Exchange.recorded
      ∧ (replayAll { buf := recording clockAndRandom } clockAndRandom).2.diverged = 0 := by
  have hkernel : ∀ exchange ∈ clockAndRandom, exchange.Kernel := by decide
  refine ⟨hkernel, (replay_returns_iff hkernel).mpr ?_⟩
  intro exchange hmem
  simp only [clockAndRandom, List.mem_cons, List.not_mem_nil, or_false] at hmem
  rcases hmem with rfl | rfl | rfl | rfl <;> simp only [Exchange.Succeeded] <;> decide

/-- A random call of length zero, and one of two bytes. -/
def emptyThenTwo : List Exchange :=
  [⟨.getrandom 0, ⟨0, []⟩, ⟨0, []⟩⟩, ⟨.getrandom 2, ⟨2, [161, 178]⟩, ⟨2, [0, 0]⟩⟩]

/-- The first call takes the entry of the second, which diverges and returns other bytes. -/
theorem empty_random_shifts_replay :
    (∀ exchange ∈ emptyThenTwo, exchange.Kernel)
      ∧ (replayAll { buf := recording emptyThenTwo } emptyThenTwo).1 = [⟨0, []⟩, ⟨2, [0, 0]⟩]
      ∧ (replayAll { buf := recording emptyThenTwo } emptyThenTwo).2.diverged = 1
      ∧ ¬ ((replayAll { buf := recording emptyThenTwo } emptyThenTwo).1
          = emptyThenTwo.map Exchange.recorded
        ∧ (replayAll { buf := recording emptyThenTwo } emptyThenTwo).2.diverged = 0) := by
  decide

end OneBarrier.Interpose
