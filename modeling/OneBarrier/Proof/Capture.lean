import OneBarrier.Capture
import OneBarrier.Proof.Replay
import OneBarrier.Lib.Run
import Mathlib.Data.List.Nodup

/-!
# The capture log and what was consumed

As long as receives are plain, the log's records of a connection are the bytes the application
consumed from it, in order and once. A peek puts bytes into the log that are read again later.
-/

namespace OneBarrier.Interpose

open Wire Run

/-- The id of the connection opened after `conn` others. -/
def idOf (conn : Nat) : UInt32 := UInt32.ofNat (conn + 1)

theorem idOf_succ (conn : Nat) : idOf conn + 1 = idOf (conn + 1) := by
  rw [idOf, idOf, UInt32.ofNat_add (conn + 1) 1]
  rfl

theorem idOf_inj {first second : Nat} (hfirst : first < 2 ^ 32) (hsecond : second < 2 ^ 32)
    (hid : idOf first = idOf second) : first = second := by
  have hnat := congrArg UInt32.toNat hid
  rw [idOf, idOf, UInt32.toNat_ofNat', UInt32.toNat_ofNat'] at hnat
  omega

namespace Shim

variable {shim : Shim} {fd : Nat} {input : Bytes}

theorem capture_eq_self (mono : Int64) (hcaptures : shim.captures fd input = none) :
    shim.capture fd input mono = shim := by
  rw [capture, hcaptures]

theorem capture_of_conn {connId : UInt32} (mono : Int64) (hcapturing : shim.env.capture = true)
    (hfd : fd < maxFd) (hconn : shim.connIdOf fd = some connId) (hinput : input ≠ []) :
    ∃ requests clock deltas, shim.capture fd input mono
      = { shim with
          requests, clock
          files := { shim.files with
            deltas
            capture := shim.files.capture.map (· ++ encodeCapture connId input) } } := by
  have hcaptures : shim.captures fd input = some connId := by
    rw [captures, if_neg, hconn]
    rintro (hnil | hle)
    exacts [hinput hnil, Nat.not_le.mpr hfd hle]
  rw [capture, hcaptures]
  dsimp only
  rw [if_pos hcapturing]
  exact ⟨_, _, _, rfl⟩

end Shim

/-- The records in the log, by connection, and how they account for the state. -/
structure Captured.Accounts (files : Files) (state : Captured) (records : List (Nat × Bytes)) : Prop where
  capturing : state.shim.env.capture = true
  file : state.shim.files.capture = some (files.capture.getD []
    ++ records.flatMap fun record => encodeCapture (idOf record.1) record.2)
  known : ∀ record ∈ records, record.1 < state.ids.length
  lengths : ∀ record ∈ records, record.2.length < 2 ^ 32
  ids : state.ids = (List.range state.ids.length).map idOf
  nextId : state.shim.nextConnId = idOf state.ids.length
  table : ∀ fd, state.shim.connIdOf fd = (state.connOf fd).map idOf
  opened : ∀ fd, ∀ conn ∈ state.connOf fd, conn < state.ids.length
  consumed : ∀ conn, state.consumed conn
    = (records.filter fun record => record.1 = conn).flatMap Prod.snd

namespace Captured.Accounts

variable {files : Files} {state : Captured} {records : List (Nat × Bytes)}

theorem capture_vclockInit (env : Env) (realtime mono : Int64) (files : Files) :
    (vclockInit env realtime mono files).2.capture = files.capture := by
  have hbase : (initBase realtime files).2.capture = files.capture := by
    rw [initBase]
    split <;> rfl
  simp only [vclockInit]
  split
  · rw [initDeltas]
    split <;> exact hbase
  · exact hbase

theorem start (env : Env) (realtime mono : Int64) (files : Files) :
    (Captured.start env realtime mono files).Accounts files [] := by
  have hfile : (Captured.start env realtime mono files).shim.files.capture
      = some (files.capture.getD []) := by
    simp only [Captured.start, Shim.start, if_true]
    split
    · rw [capture_vclockInit]
    · rfl
  have hshim : ∃ clock files', (Captured.start env realtime mono files).shim
      = { env := { env with capture := true }, clock, files := files' } := by
    simp only [Captured.start, Shim.start]
    split <;> exact ⟨_, _, rfl⟩
  obtain ⟨clock, files', hshim⟩ := hshim
  refine ⟨?_, ?_, by simp, by simp, rfl, ?_, ?_, by simp [Captured.start], fun conn => rfl⟩
  · rw [hshim]
  · rw [hfile, List.flatMap_nil, List.append_nil]
  · rw [hshim]
    rfl
  · intro fd
    rw [hshim]
    rfl

theorem ids_openConn {fd : Nat} (hfd : fd < maxFd) :
    (state.openConn fd (state.shim.markConn fd)).ids = state.ids ++ [state.shim.nextConnId] := by
  rw [Captured.openConn, Shim.markConn, Shim.step, if_neg (Nat.not_le.mpr hfd)]
  simp

/-- A new connection gets the next id. -/
theorem openConn (haccounts : state.Accounts files records) {fd : Nat} (hfd : fd < maxFd) :
    (state.openConn fd (state.shim.markConn fd)).Accounts files records := by
  have hmark : state.shim.markConn fd
      = { state.shim with
          connIdOf := Function.update state.shim.connIdOf fd (some state.shim.nextConnId)
          nextConnId := state.shim.nextConnId + 1 } := by
    rw [Shim.markConn, Shim.step, if_neg (Nat.not_le.mpr hfd)]
  have hids : (state.openConn fd (state.shim.markConn fd)).ids = state.ids ++ [idOf state.ids.length] := by
    rw [ids_openConn hfd, haccounts.nextId]
  have hlength : (state.openConn fd (state.shim.markConn fd)).ids.length = state.ids.length + 1 := by
    rw [hids, List.length_append, List.length_singleton]
  refine ⟨?_, ?_, ?_, haccounts.lengths, ?_, ?_, ?_, ?_, haccounts.consumed⟩
  · rw [Captured.openConn, hmark]
    exact haccounts.capturing
  · rw [Captured.openConn, hmark]
    exact haccounts.file
  · intro record hmem
    rw [hlength]
    exact Nat.lt_succ_of_lt (haccounts.known record hmem)
  · rw [hlength, hids, List.range_succ, List.map_append, ← haccounts.ids]
    rfl
  · rw [hlength, Captured.openConn, hmark]
    exact (congrArg (· + 1) haccounts.nextId).trans (idOf_succ _)
  · intro other
    rw [Captured.openConn, hmark]
    by_cases heq : other = fd
    · subst heq
      simp [haccounts.nextId]
    · simp [heq, haccounts.table]
  · intro other conn hconn
    rw [hlength]
    by_cases heq : other = fd
    · subst heq
      simp [Captured.openConn] at hconn
      omega
    · simp only [Captured.openConn, Function.update_of_ne heq] at hconn
      exact Nat.lt_succ_of_lt (haccounts.opened other conn hconn)

theorem close (haccounts : state.Accounts files records) {fd : Nat} (hfd : fd < maxFd) :
    ({ state with
        shim := state.shim.step (.close fd)
        connOf := Function.update state.connOf fd none } : Captured).Accounts files records := by
  have hclose : state.shim.step (.close fd)
      = { state.shim with connIdOf := Function.update state.shim.connIdOf fd none } := by
    rw [Shim.step, if_neg (Nat.not_le.mpr hfd)]
  rw [hclose]
  refine ⟨haccounts.capturing, haccounts.file, haccounts.known, haccounts.lengths, haccounts.ids,
    haccounts.nextId, ?_, ?_, haccounts.consumed⟩
  · intro other
    by_cases heq : other = fd
    · subst heq
      simp
    · simp [heq, haccounts.table]
  · intro other conn hconn
    by_cases heq : other = fd
    · subst heq
      simp at hconn
    · simp only [Function.update_of_ne heq] at hconn
      exact haccounts.opened other conn hconn

/-- The bytes at the first buffer are the ones the application got. -/
theorem input_eq {receive : Receive} (hkernel : receive.Kernel) (hplain : receive.Plain) :
    (List.range' receive.firstBase receive.receipt.returned.toNat).map receive.receipt.memory
        = receive.receipt.consumed
      ∧ receive.receipt.consumed.length = receive.receipt.returned.toNat := by
  have hlength : receive.receipt.consumed.length = receive.receipt.returned.toNat := by
    cases htrunc : receive.flags.trunc with
    | false => exact hkernel.whole hplain.taken.1 hplain.taken.2 htrunc
    | true => exact hplain.untruncated htrunc
  refine ⟨?_, hlength⟩
  calc
    (List.range' receive.firstBase receive.receipt.returned.toNat).map receive.receipt.memory
      = ((Iovec.addresses receive.iov).map receive.receipt.memory).take
          receive.receipt.returned.toNat := by
        rw [← hplain.inOnePiece, List.map_take]
    _ = receive.receipt.consumed := by
      rw [← hlength, ← hkernel.stored]

theorem consume_of_nil {receive : Receive} (hnone : receive.receipt.consumed = []) :
    state.consume receive state.shim = state := by
  rw [Captured.consume]
  split
  · rfl
  · rw [hnone, List.append_nil, Function.update_eq_self]

/-- **A plain receive adds to the log what it takes off the connection.** -/
theorem consume (haccounts : state.Accounts files records) {receive : Receive}
    (hfd : receive.fd < maxFd) (hkernel : receive.Kernel)
    (hplain : (state.connOf receive.fd).isSome → 0 < receive.receipt.returned → receive.Plain) :
    ∃ records, (state.consume receive (state.shim.captureAt receive.fd receive.firstBase
      receive.receipt)).Accounts files records := by
  have htable := haccounts.table receive.fd
  rw [Shim.captureAt]
  cases hconn : state.connOf receive.fd with
  | none =>
      rw [hconn, Option.map_none] at htable
      have hcaptures : ∀ input, state.shim.captures receive.fd input = none := by
        intro input
        rw [Shim.captures, htable, ite_self]
      rw [Shim.capture_eq_self _ (hcaptures _), Captured.consume, hconn]
      exact ⟨records, haccounts⟩
  | some conn =>
      rw [hconn, Option.map_some] at htable
      by_cases hpos : 0 < receive.receipt.returned
      · obtain ⟨hinput, hlength⟩ := input_eq hkernel (hplain (by rw [hconn]; rfl) hpos)
        have hbound := hkernel.bounded
        have hnonempty : receive.receipt.consumed ≠ [] := by
          rw [← List.length_pos_iff, hlength]
          omega
        obtain ⟨requests, clock, deltas, hcapture⟩ := Shim.capture_of_conn receive.receipt.mono
          haccounts.capturing hfd htable hnonempty
        rw [hinput, hcapture, Captured.consume, hconn]
        refine ⟨records ++ [(conn, receive.receipt.consumed)], haccounts.capturing, ?_, ?_, ?_,
          haccounts.ids, haccounts.nextId, haccounts.table, haccounts.opened, ?_⟩
        · dsimp only
          rw [haccounts.file, Option.map_some, List.append_assoc, List.flatMap_append,
            List.flatMap_singleton]
        · intro record hmem
          obtain hmem | hmem := List.mem_append.mp hmem
          · exact haccounts.known record hmem
          · rw [List.mem_singleton.mp hmem]
            exact haccounts.opened receive.fd conn hconn
        · intro record hmem
          obtain hmem | hmem := List.mem_append.mp hmem
          · exact haccounts.lengths record hmem
          · rw [List.mem_singleton.mp hmem]
            change receive.receipt.consumed.length < 2 ^ 32
            omega
        · intro other
          rw [List.filter_append, List.flatMap_append, ← haccounts.consumed]
          dsimp only
          by_cases heq : other = conn
          · subst heq
            simp
          · simp [heq, Ne.symm heq]
      · have hzero : receive.receipt.returned.toNat = 0 := Int.toNat_of_nonpos (Int.not_lt.mp hpos)
        have hnone : receive.receipt.consumed = [] := by
          have hshort := hkernel.short
          rw [hzero] at hshort
          exact List.length_eq_zero_iff.mp (Nat.le_zero.mp hshort)
        have hcaptures : state.shim.captures receive.fd [] = none := if_pos (.inl rfl)
        rw [hzero, List.range'_zero, List.map_nil, Shim.capture_eq_self _ hcaptures,
          consume_of_nil hnone]
        exact ⟨records, haccounts⟩

/-- Every admitted call keeps the account. -/
theorem step (haccounts : state.Accounts files records) {call : Intercepted}
    (hadmits : state.Admits call) : ∃ records, (state.step call).Accounts files records := by
  obtain ⟨hbelow, hkernel, hplain⟩ := hadmits
  match call with
  | .accept (some fd) | .accept4 (some fd) =>
      exact ⟨records, haccounts.openConn (hbelow fd (by simp [Intercepted.fds, Intercepted.opens]))⟩
  | .accept none | .accept4 none => exact ⟨records, haccounts⟩
  | .bind fd true =>
      exact ⟨records, haccounts.openConn (hbelow fd (by simp [Intercepted.fds, Intercepted.opens]))⟩
  | .bind fd false => exact ⟨records, haccounts⟩
  | .read fd buf receipt =>
      exact haccounts.consume (hbelow fd (by simp [Intercepted.fds, Intercepted.receives]))
        (hkernel _ rfl) (hplain _ rfl)
  | .recv fd buf flags receipt =>
      exact haccounts.consume (hbelow fd (by simp [Intercepted.fds, Intercepted.receives]))
        (hkernel _ rfl) (hplain _ rfl)
  | .recvfrom fd buf flags receipt =>
      exact haccounts.consume (hbelow fd (by simp [Intercepted.fds, Intercepted.receives]))
        (hkernel _ rfl) (hplain _ rfl)
  | .recvmsg fd (vec :: iov) flags receipt =>
      exact haccounts.consume (hbelow fd (by simp [Intercepted.fds, Intercepted.receives]))
        (hkernel _ rfl) (hplain _ rfl)
  | .recvmsg fd [] flags receipt =>
      have hnone : receipt.consumed = [] := by
        have hstored := (hkernel _ rfl).stored
        simpa [Iovec.addresses] using hstored
      have hstep : state.step (.recvmsg fd [] flags receipt) = state :=
        @consume_of_nil state ⟨fd, [], flags, receipt⟩ hnone
      rw [hstep]
      exact ⟨records, haccounts⟩
  | .close fd =>
      exact ⟨records, haccounts.close (hbelow fd (by simp [Intercepted.fds, Intercepted.closes]))⟩

/-- The log of a connection is what was consumed from it, unless an id is used twice. -/
theorem recorded_log (haccounts : state.Accounts files records) (hcount : state.ids.length ≤ 2 ^ 32)
    {conn : Nat} (hconn : conn < state.ids.length) :
    Captured.recorded (state.log files) (idOf conn) = state.consumed conn := by
  have hlog : state.log files = (records.map fun record => (idOf record.1, record.2)).flatMap
      fun record => encodeCapture record.1 record.2 := by
    rw [Captured.log, haccounts.file, Option.getD_some, List.drop_left, List.flatMap_map]
  have hparse : Replay.parse (state.log files).length (state.log files)
      = records.map fun record => (idOf record.1, record.2) := by
    rw [hlog]
    refine Replay.parse_encodeCapture (Replay.length_le_encodeCapture _) ?_
    intro record hmem
    obtain ⟨record, hrecord, rfl⟩ := List.mem_map.mp hmem
    exact haccounts.lengths record hrecord
  rw [Captured.recorded, hparse, haccounts.consumed, List.filter_map, List.flatMap_map]
  congr 1
  refine List.filter_congr fun record hmem => ?_
  have hknown := haccounts.known record hmem
  refine decide_eq_decide.mpr ⟨fun hid => idOf_inj (by omega) (by omega) hid, ?_⟩
  rintro rfl
  rfl

end Captured.Accounts

theorem ids_step {state : Captured} {call : Intercepted} (hadmits : state.Admits call) :
    (state.step call).ids.length = state.ids.length + if call.opens.isSome then 1 else 0 := by
  rw [Captured.step]
  cases hopens : call.opens with
  | some fd =>
      have hfd : fd < maxFd := hadmits.below fd (by simp [Intercepted.fds, hopens])
      have hmark : state.shim.intercept call = state.shim.markConn fd := by
        match call, hopens with
        | .accept (some _), rfl | .accept4 (some _), rfl | .bind _ true, rfl => rfl
      dsimp only
      rw [hmark, Captured.Accounts.ids_openConn hfd, List.length_append]
      rfl
  | none =>
      cases call.receives with
      | some receive =>
          dsimp only [Captured.consume]
          split <;> rfl
      | none => cases call.closes <;> rfl

theorem ids_run {state : Captured} {calls : List Intercepted}
    (hadmits : Guarded Captured.step Captured.Admits state calls) :
    (run Captured.step state calls).ids.length
      = state.ids.length + calls.countP fun call => call.opens.isSome := by
  induction calls generalizing state with
  | nil => rfl
  | cons call calls ih =>
      rw [run_cons, ih hadmits.2, ids_step hadmits.1, List.countP_cons]
      omega

/-- **The capture log is what was consumed.** In every run whose calls on connections are plain
receives and that opens at most `2^32` connections, every connection has an id of its own, and the
records with that id are the bytes the application consumed from it, in order and once. -/
theorem captured_eq_consumed {env : Env} {realtime mono : Int64} {files : Files}
    {calls : List Intercepted}
    (hadmits : Guarded Captured.step Captured.Admits (Captured.start env realtime mono files) calls)
    (hcount : calls.countP (fun call => call.opens.isSome) ≤ 2 ^ 32) :
    let state := run Captured.step (Captured.start env realtime mono files) calls
    state.ids.length = calls.countP (fun call => call.opens.isSome)
      ∧ state.ids.Nodup
      ∧ ∀ conn connId, state.ids[conn]? = some connId →
        Captured.recorded (state.log files) connId = state.consumed conn := by
  intro state
  have hlength : state.ids.length = calls.countP fun call => call.opens.isSome := by
    have hcounted := ids_run hadmits
    rwa [show (Captured.start env realtime mono files).ids.length = 0 from rfl, Nat.zero_add] at hcounted
  have hstep : ∀ (state : Captured) call, state.Admits call →
      (∃ records, state.Accounts files records) → ∃ records, (state.step call).Accounts files records :=
    fun _ _ hcall ⟨_, haccounts⟩ => haccounts.step hcall
  obtain ⟨records, haccounts⟩ := invariant_run (fun state => ∃ records, state.Accounts files records)
    hstep hadmits ⟨[], Captured.Accounts.start env realtime mono files⟩
  have hids := haccounts.ids
  refine ⟨hlength, ?_, ?_⟩
  · rw [hids]
    refine List.Nodup.map_on ?_ List.nodup_range
    intro first hfirst second hsecond hid
    have hfirst := List.mem_range.mp hfirst
    have hsecond := List.mem_range.mp hsecond
    have hcount : state.ids.length ≤ 2 ^ 32 := hlength.trans_le hcount
    exact idOf_inj (Nat.lt_of_lt_of_le hfirst hcount) (Nat.lt_of_lt_of_le hsecond hcount) hid
  · intro conn connId hconn
    obtain ⟨hbound, -⟩ := List.getElem?_eq_some_iff.mp hconn
    rw [hids, List.getElem?_map, List.getElem?_range hbound, Option.map_some, Option.some_inj] at hconn
    rw [← hconn]
    exact haccounts.recorded_log (hlength.trans_le hcount) hbound

/-- `hello` at address 100. -/
def helloMemory : Memory := fun address => (Utf8.asBytes "hello").getD (address - 100) 0

/-- A connection is read in two pieces, the second scattered over adjacent buffers; its descriptor
is closed and becomes another connection. -/
def readTwice : List Intercepted :=
  [.accept (some 5), .recv 5 ⟨100, 5⟩ {} ⟨5, helloMemory, Utf8.asBytes "hello", 0⟩,
    .recvmsg 5 [⟨100, 2⟩, ⟨102, 8⟩] {} ⟨4, helloMemory, Utf8.asBytes "hell", 0⟩, .close 5,
    .accept4 (some 5), .read 5 ⟨100, 2⟩ ⟨2, helloMemory, Utf8.asBytes "he", 0⟩]

theorem captured_eq_consumed_readTwice :
    let state := run Captured.step (Captured.start {} 0 0 {}) readTwice
    state.ids = [1, 2] ∧ state.consumed 0 = Utf8.asBytes "hellohell"
      ∧ Captured.recorded (state.log {}) 1 = state.consumed 0 := by
  intro state
  have hresult := captured_eq_consumed
    (by decide : Guarded Captured.step Captured.Admits (Captured.start {} 0 0 {}) readTwice) (by decide)
  exact ⟨by decide, by decide, hresult.2.2 0 1 (by decide)⟩

/-- A byte is looked at and then read. -/
def peekThenRead : List Intercepted :=
  [.accept (some 5), .recv 5 ⟨100, 1⟩ { peek := true } ⟨1, helloMemory, [], 0⟩,
    .read 5 ⟨100, 1⟩ ⟨1, helloMemory, Utf8.asBytes "h", 0⟩]

/-- The log has the byte twice. -/
theorem peek_captured_twice :
    let state := run Captured.step (Captured.start {} 0 0 {}) peekThenRead
    (∀ call ∈ peekThenRead, (∀ fd ∈ call.fds, fd < maxFd) ∧ ∀ receive ∈ call.receives, receive.Kernel)
      ∧ state.ids = [1] ∧ state.consumed 0 = Utf8.asBytes "h"
      ∧ Captured.recorded (state.log {}) 1 = Utf8.asBytes "hh" := by
  decide

end OneBarrier.Interpose
