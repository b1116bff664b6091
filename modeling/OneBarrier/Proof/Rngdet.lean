import OneBarrier.Lib.Blocks
import OneBarrier.Rngdet

/-!
# The random stream

The supervisor's chunks are whole words except the last, so the chunk loop hands out the same bytes
as one fill of the whole length. What a run of requests receives is then a function of the seed and
the lengths.
-/

namespace OneBarrier.Rngdet

open Wire

/-- The generator, word by word. -/
def words : BlockGenerator UInt64 UInt8 where
  width := 8
  width_pos := by omega
  next smState := (leBytes 8 (smNext smState).1.toNat, (smNext smState).2)
  length_next _ := length_leBytes 8 _

/-- What `getrandom` answers to requests of the given lengths when each is one `det_fill`. -/
def streams : List UInt64 → UInt64 → List Bytes × UInt64
  | [], smState => ([], smState)
  | len :: lens, smState =>
      let (bytes, smState) := detFill len.toNat smState
      let (rest, smState) := streams lens smState
      (bytes :: rest, smState)

/-- What each caller finds in its buffer. -/
def delivered (requests : List Request) (responses : List Response) : List Bytes :=
  List.zipWith (fun request response => response.mem.peek request.dst request.len.toNat)
    requests responses

theorem detFill_eq_drain (n : Nat) (smState : UInt64) :
    detFill n smState = words.drain n smState := by
  fun_induction detFill n smState with
  | case1 smState => exact (words.drain_zero smState).symm
  | case2 n smState hn r next hnext k out final hout ih =>
      have hk : k = min n words.width := by
        simp only [k, words]
        split <;> omega
      have hblock : words.next smState = (leBytes 8 r.toNat, next) := by simp [words, hnext]
      have hstep : words.step smState = next := congrArg Prod.snd hblock
      rw [words.drain_turn (by omega), hblock, hstep, ← hk, ← ih, hout]

@[simp]
theorem length_detFill (n : Nat) (smState : UInt64) : (detFill n smState).1.length = n := by
  rw [detFill_eq_drain, words.length_drain]

/-! ### Stores -/

theorem Memory.poke_nil (mem : Memory) (dst : UInt64) : mem.poke dst [] = mem := rfl

theorem Memory.poke_take (mem : Memory) (dst : UInt64) (src : Bytes) (n : Nat) :
    (mem.poke dst (src.take n)).poke dst src = mem.poke dst src := by
  funext addr
  simp only [poke, List.getD_eq_getElem?_getD]
  by_cases hin : (addr - dst).toNat < src.length
  · simp [List.getElem?_eq_getElem hin]
  · have hout : (src.take n).length ≤ (addr - dst).toNat := by
      rw [List.length_take]
      omega
    rw [List.getElem?_eq_none (Nat.le_of_not_lt hin), List.getElem?_eq_none hout]
    rfl

/-- A buffer stored in two parts, as long as it does not reach around the address space. -/
theorem Memory.poke_append (mem : Memory) (dst : UInt64) (first second : Bytes)
    (hlength : first.length + second.length ≤ 2 ^ 64) :
    (mem.poke dst first).poke (dst + UInt64.ofNat first.length) second
      = mem.poke dst (first ++ second) := by
  funext addr
  have hoffset : (addr - (dst + UInt64.ofNat first.length)).toNat
      = (2 ^ 64 - first.length % 2 ^ 64 + (addr - dst).toNat) % 2 ^ 64 := by
    have hdst := dst.toNat_lt
    have haddr := addr.toNat_lt
    simp only [UInt64.toNat_sub, UInt64.toNat_add, UInt64.toNat_ofNat']
    omega
  have haddr := (addr - dst).toNat_lt
  simp only [poke, List.getD_eq_getElem?_getD]
  rw [hoffset]
  by_cases hfirst : (addr - dst).toNat < first.length
  · have hwrap : second.length
        ≤ (2 ^ 64 - first.length % 2 ^ 64 + (addr - dst).toNat) % 2 ^ 64 := by omega
    rw [List.getElem?_append_left hfirst, List.getElem?_eq_none hwrap]
    rfl
  · have hshift : (2 ^ 64 - first.length % 2 ^ 64 + (addr - dst).toNat) % 2 ^ 64
        = (addr - dst).toNat - first.length := by omega
    rw [hshift, List.getElem?_append_right (by omega),
      List.getElem?_eq_none (Nat.le_of_not_lt hfirst)]
    rfl

theorem Memory.peek_poke (mem : Memory) (dst : UInt64) (src : Bytes)
    (hlength : src.length ≤ 2 ^ 64) : (mem.poke dst src).peek dst src.length = src := by
  apply List.ext_getElem
  · simp [peek]
  · intro i hi hsrc
    have hoffset : (dst + UInt64.ofNat i - dst).toNat = i := by
      have hdst := dst.toNat_lt
      rw [UInt64.toNat_sub, UInt64.toNat_add, UInt64.toNat_ofNat']
      omega
    simp only [peek, poke, List.getElem_map, List.getElem_range, hoffset]
    rw [List.getD_eq_getElem?_getD, List.getElem?_eq_getElem hsrc, Option.getD_some]

/-- A write that returns 0 has stored the whole buffer, whichever way it took. -/
theorem writeRemote_ok {kernel : Transfer} {mem stored : Memory} {dst : UInt64} {src : Bytes}
    (hok : writeRemote kernel mem dst src = (stored, true)) : stored = mem.poke dst src := by
  simp only [writeRemote] at hok
  split at hok
  · rename_i hwritten
    rw [hwritten] at hok
    simpa using (Prod.ext_iff.mp hok).1.symm
  · split at hok
    · simp at hok
    · obtain ⟨hmem, hsize⟩ := Prod.mk.inj hok
      have hpwritten : kernel.pwritten = some src.length := by simpa using hsize
      rw [← hmem, hpwritten, Option.getD_some, List.take_length, Memory.poke_take]

/-- The write stores a buffer of `n` bytes, directly or through `/proc/<pid>/mem`. -/
def Transfer.Stores (kernel : Transfer) (n : Nat) : Prop :=
  kernel.written = some n ∨ kernel.opened = true ∧ kernel.pwritten = some n

theorem writeRemote_snd {kernel : Transfer} {mem : Memory} {dst : UInt64} {src : Bytes} :
    (writeRemote kernel mem dst src).2 = true ↔ kernel.Stores src.length := by
  simp only [writeRemote, Transfer.Stores]
  split
  · simp [*]
  · split <;> simp_all

/-! ### The chunk loop -/

/-- A chunk is the rest of the request or a whole number of words. -/
theorem drain_chunk (rest : Nat) (smState : UInt64) :
    words.drain rest smState
      = ((detFill (min rest bufSize) smState).1
            ++ (words.drain (rest - min rest bufSize) (detFill (min rest bufSize) smState).2).1,
          (words.drain (rest - min rest bufSize) (detFill (min rest bufSize) smState).2).2) := by
  rw [detFill_eq_drain]
  by_cases hrest : rest ≤ bufSize
  · rw [Nat.min_eq_left hrest, Nat.sub_self, words.drain_zero, List.append_nil]
  · have hwords : words.width ∣ bufSize := by decide
    have hsplit : bufSize + (rest - bufSize) = rest := by omega
    have hadd := words.drain_add hwords (rest - bufSize) smState
    rw [hsplit] at hadd
    rw [Nat.min_eq_right (Nat.le_of_not_le hrest), hadd]

/-- The kernel stores every chunk of a loop from an offset on. -/
def StoresFrom (kernel : Nat → Transfer) (len off : Nat) : Prop :=
  ∀ chunk, off + bufSize * chunk < len →
    (kernel chunk).Stores (min (len - (off + bufSize * chunk)) bufSize)

theorem StoresFrom.first {kernel : Nat → Transfer} {len off : Nat}
    (hstores : StoresFrom kernel len off) (hlt : off < len) :
    (kernel 0).Stores (min (len - off) bufSize) := by
  simpa using hstores 0 (by simpa using hlt)

theorem StoresFrom.rest {kernel : Nat → Transfer} {len off : Nat}
    (hstores : StoresFrom kernel len off) :
    StoresFrom (fun i => kernel (i + 1)) len (off + min (len - off) bufSize) := by
  intro chunk hchunk
  -- There is a next chunk, so this one was full.
  have hfull : off + min (len - off) bufSize + bufSize * chunk = off + bufSize * (chunk + 1) := by
    have hk : min (len - off) bufSize = bufSize := by omega
    rw [hk, Nat.mul_succ]
    omega
  rw [hfull] at hchunk ⊢
  exact hstores (chunk + 1) hchunk

/-- If every write succeeds, the loop stores what one fill of the rest would give. -/
theorem fillRemote_eq (kernel : Nat → Transfer) (mem : Memory) (dst : UInt64) (len off : Nat)
    (smState : UInt64) (hlen : len ≤ 2 ^ 64) (hoff : off ≤ len)
    (hstores : StoresFrom kernel len off) :
    fillRemote kernel mem dst len off smState
      = (mem.poke (dst + UInt64.ofNat off) (words.drain (len - off) smState).1, true,
          (words.drain (len - off) smState).2) := by
  fun_induction fillRemote kernel mem dst len off smState with
  | case1 kernel mem off smState hlt k buf next hfill stored hwrite =>
      have hk : k = min (len - off) bufSize := by
        simp only [k]
        split <;> omega
      have hbuf : buf.length = k := by
        rw [← length_detFill k smState, hfill]
      have hfirst := hstores.first hlt
      rw [← hk, ← hbuf, ← writeRemote_snd, hwrite] at hfirst
      simp at hfirst
  | case2 kernel mem off smState hlt k buf next hfill stored hwrite ih =>
      have hk : k = min (len - off) bufSize := by
        simp only [k]
        split <;> omega
      have hbuf : buf.length = k := by
        rw [← length_detFill k smState, hfill]
      have hchunk := drain_chunk (len - off) smState
      rw [← hk, hfill] at hchunk
      have hrest : len - (off + k) = len - off - k := by omega
      have haddr : dst + UInt64.ofNat (off + k)
          = dst + UInt64.ofNat off + UInt64.ofNat buf.length := by
        rw [hbuf, UInt64.ofNat_add, UInt64.add_assoc]
      have hfits : buf.length + (words.drain (len - off - k) next).1.length ≤ 2 ^ 64 := by
        rw [hbuf, words.length_drain]
        omega
      rw [ih (by omega) (hk ▸ hstores.rest), hrest, haddr, writeRemote_ok hwrite,
        Memory.poke_append _ _ _ _ hfits, hchunk]
  | case3 kernel mem off smState hge =>
      have hrest : len - off = 0 := by omega
      rw [hrest, words.drain_zero, Memory.poke_nil]

/-- The kernel stores every chunk of the request. -/
def Request.Stored (request : Request) : Prop :=
  StoresFrom request.kernel request.len.toNat 0

/-- The answer to a request that is stored, and the state it leaves. -/
theorem getrandom_stored {request : Request} (hstored : request.Stored) (smState : UInt64) :
    getrandom request smState
      = (⟨request.len, false,
            request.mem.poke request.dst (detFill request.len.toNat smState).1⟩,
          (detFill request.len.toNat smState).2) := by
  have hlen : request.len.toNat ≤ 2 ^ 64 := request.len.toNat_lt.le
  have haddr : request.dst + UInt64.ofNat 0 = request.dst :=
    UInt64.add_zero request.dst
  rw [getrandom, fillRemote_eq _ _ _ _ _ _ hlen (Nat.zero_le _) hstored, Nat.sub_zero, haddr,
    ← detFill_eq_drain]

theorem peek_stored {request : Request} (hstored : request.Stored) (smState : UInt64) :
    (getrandom request smState).1.mem.peek request.dst request.len.toNat
      = (detFill request.len.toNat smState).1 := by
  have hlength := length_detFill request.len.toNat smState
  have hfits : (detFill request.len.toNat smState).1.length ≤ 2 ^ 64 :=
    hlength.le.trans request.len.toNat_lt.le
  have hpeek := Memory.peek_poke request.mem request.dst _ hfits
  rw [hlength] at hpeek
  rw [getrandom_stored hstored, hpeek]

theorem detFill_state (n : Nat) (smState : UInt64) :
    (detFill n smState).2 = (fun state => (smNext state).2)^[(n + 7) / 8] smState := by
  rw [detFill_eq_drain]
  rfl

/-- A run of requests that are stored: every caller receives its part of the stream. -/
theorem supervisor_stored (requests : List Request) (smState : UInt64)
    (hstored : ∀ request ∈ requests, request.Stored) :
    delivered requests (supervisor requests smState).1
        = (streams (requests.map Request.len) smState).1
      ∧ (supervisor requests smState).2 = (streams (requests.map Request.len) smState).2 := by
  induction requests generalizing smState with
  | nil => exact ⟨rfl, rfl⟩
  | cons request requests ih =>
      have hfirst := hstored request List.mem_cons_self
      have hrest : ∀ later ∈ requests, later.Stored := fun later hlater =>
        hstored later (List.mem_cons_of_mem request hlater)
      have hnext : (getrandom request smState).2 = (detFill request.len.toNat smState).2 := by
        rw [getrandom_stored hfirst]
      obtain ⟨hbytes, hstate⟩ := ih (detFill request.len.toNat smState).2 hrest
      simp only [delivered] at hbytes
      simp only [supervisor, streams, delivered, List.map_cons, List.zipWith_cons_cons,
        peek_stored hfirst, hnext]
      exact ⟨congrArg _ hbytes, hstate⟩

/-- **The random stream.** A request whose chunks are all stored receives the bytes of one fill of
its length, and the generator advances one word for every eight bytes begun. What a run of such
requests receives is a function of the seed and the lengths. -/
theorem supervisor_eq_streams :
    (∀ (request : Request) (smState : UInt64), request.Stored →
        getrandom request smState
            = (⟨request.len, false,
                  request.mem.poke request.dst (detFill request.len.toNat smState).1⟩,
                (detFill request.len.toNat smState).2)
          ∧ (getrandom request smState).1.mem.peek request.dst request.len.toNat
            = (detFill request.len.toNat smState).1
          ∧ (detFill request.len.toNat smState).2
            = (fun state => (smNext state).2)^[(request.len.toNat + 7) / 8] smState)
      ∧ ∀ (requests : List Request) (smState : UInt64),
          (∀ request ∈ requests, request.Stored) →
            delivered requests (supervisor requests smState).1
                = (streams (requests.map Request.len) smState).1
              ∧ (supervisor requests smState).2
                = (streams (requests.map Request.len) smState).2 :=
  ⟨fun _ smState hstored =>
    ⟨getrandom_stored hstored smState, peek_stored hstored smState, detFill_state _ smState⟩,
    supervisor_stored⟩

/-- A request of two chunks. The second one reaches the caller through `/proc/<pid>/mem`. -/
def fiveThousand : Request where
  dst := 0x7FFF0000
  len := 5000
  mem _ := 0
  kernel chunk := if chunk = 0 then ⟨some 4096, false, none⟩ else ⟨some 100, true, some 904⟩

theorem fiveThousand_stored : fiveThousand.Stored := by
  intro chunk hchunk
  have hlen : fiveThousand.len.toNat = 5000 := rfl
  simp only [hlen, bufSize] at hchunk ⊢
  obtain rfl | rfl : chunk = 0 ∨ chunk = 1 := by omega
  · exact .inl rfl
  · exact .inr ⟨rfl, rfl⟩

theorem fiveThousand_stream :
    (getrandom fiveThousand 7).1.mem.peek 0x7FFF0000 5000 = (detFill 5000 7).1
      ∧ delivered [fiveThousand, fiveThousand] (supervisor [fiveThousand, fiveThousand] 7).1
        = (streams [5000, 5000] 7).1 := by
  have hall : ∀ request ∈ [fiveThousand, fiveThousand], request.Stored := by
    simp [fiveThousand_stored]
  exact ⟨(supervisor_eq_streams.1 fiveThousand 7 fiveThousand_stored).2.1,
    (supervisor_eq_streams.2 [fiveThousand, fiveThousand] 7 hall).1⟩

end OneBarrier.Rngdet
