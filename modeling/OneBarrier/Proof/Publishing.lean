import OneBarrier.Proof.Subscription

/-!
# Published offsets

What a topic holds is changed by the requests that publish to it, and by nothing else, so the offsets
that are acknowledged differ and every message stays. A message that makes the record of its op one byte
longer than the log's length field reaches is acknowledged all the same, and the next start does not
find it.
-/

namespace OneBarrier

open Wire Utf8 Text Durable

namespace World

variable {frontend : Frontend} {world : World frontend}

/-- Replies are not taken back. -/
theorem replies_prefix_run (events : List (WorldEvent frontend)) :
    world.replies <+: (Run.run step world events).replies := by
  induction events generalizing world with
  | nil => exact List.prefix_refl _
  | cons event events ih =>
      refine List.IsPrefix.trans ?_ ih
      obtain hsame | ⟨handle, turn, -, -, hmore⟩ := @replies_step _ world event
      · exact ⟨[], by rw [List.append_nil, hsame]⟩
      · rw [hmore]
        exact List.prefix_append _ _

end World

namespace StreamLog

/-! ### One topic -/

/-- The topic's length and its messages are the same. -/
def SameTopic (topic : List Char) (before after : KvStore) : Prop :=
  after.map[counterKey topic]? = before.map[counterKey topic]?
    ∧ ∀ offset, after.map[messageKey topic offset]? = before.map[messageKey topic offset]?

/-- An op of a request that does not publish to the topic. -/
theorem Issued.sameTopic {client : UInt32} {seq : UInt64} {parts : List (List Char)}
    {answers : List (Op × Option Output)} {op : Op} (hissued : Issued client seq parts answers op)
    {topic : List Char} (hother : isPub parts = true → topicOf parts ≠ topic) (store : KvStore) :
    SameTopic topic store (store.apply op).1 := by
  have hissues := hissued.issues
  cases hissued with
  | reads hpub hread =>
      have hkeep : ∀ key : String, (store.apply op).1.map[key]? = store.map[key]? := by
        intro key
        refine getElem?_apply hissues (fun name hkind => ?_) (fun name offset message hkind => ?_) store
        all_goals
          rw [Op.isWrite, hkind] at hread
          cases hread
      exact ⟨hkeep _, fun offset => hkeep _⟩
  | takes hpub =>
      refine ⟨getElem?_apply hissues (fun name hkind hkey => ?_) (fun _ _ _ hkind => ?_) store,
        fun offset => getElem?_apply hissues (fun name _ => ?_) (fun _ _ _ hkind => ?_) store⟩
      · obtain rfl := counterKey_inj hkey
        exact hother hpub (counterKey_inj (OpKind.incr.inj hkind).1)
      · cases hkind
      · exact counterKey_ne_messageKey name topic offset
      · cases hkind
  | stores hpub stored =>
      refine ⟨getElem?_apply hissues (fun _ hkind => ?_) (fun name place _ _ hkey => ?_) store,
        fun offset => getElem?_apply hissues (fun _ hkind => ?_) (fun name place _ hkind hkey => ?_)
          store⟩
      · cases hkind
      · exact counterKey_ne_messageKey topic name place hkey.symm
      · cases hkind
      · obtain ⟨rfl, -⟩ := messageKey_inj hkey
        exact hother hpub (messageKey_inj (OpKind.set.inj hkind).1).1

/-- The later store has what the topic had, and every message within the topic's length. -/
structure Extends (topic : List Char) (before later : KvStore) : Prop where
  length : lengthOf before topic ≤ lengthOf later topic
  messages : ∀ offset message, before.map[messageKey topic offset]? = some message →
    later.map[messageKey topic offset]? = some message
  within : ∀ offset message, later.map[messageKey topic offset]? = some message →
    1 ≤ offset ∧ offset ≤ lengthOf later topic

theorem extends_of_le {handed : Nat} {executions : List (Execution streamlog)}
    {world : World streamlog} (hcontinues : Continues handed executions world)
    (hfew : executions.length < 9223372036854775807) (topic : List Char) {count more : Nat}
    (hle : count ≤ more) :
    Extends topic (after ((executions.map Execution.op).take count))
      (after ((executions.map Execution.op).take more)) := by
  have hlength : ∀ count, lengthOf (after ((executions.map Execution.op).take count)) topic
      = Int64.ofNat (taken topic ((executions.map Execution.op).take count)) := by
    intro count
    refine lengthOf_after (fun op hop => ?_) topic
    rw [← List.map_take] at hop
    exact issues hcontinues hop
  have htaken := @taken_le executions topic
  have hmore : taken topic ((executions.map Execution.op).take count)
      ≤ taken topic ((executions.map Execution.op).take more) :=
    (List.take_prefix_take_left hle).sublist.countP_le
  refine ⟨?_, fun offset message hget => message_stays hcontinues hfew hle hget,
    fun offset message hget => ?_⟩
  · rw [hlength, hlength, Int64.le_iff_toInt_le, Int64.toInt_ofNat_of_lt, Int64.toInt_ofNat_of_lt]
    · omega
    · exact Nat.lt_of_le_of_lt (htaken more) (by omega)
    · exact Nat.lt_of_le_of_lt (htaken count) (by omega)
  · obtain ⟨before, hbefore, rfl⟩ := offset_le_taken hcontinues hget
    have hall := htaken more
    rw [hlength, Int64.le_iff_toInt_le, Int64.le_iff_toInt_le, Int64.toInt_ofNat_of_lt (by omega),
      Int64.toInt_ofNat_of_lt (by omega)]
    refine ⟨?_, by omega⟩
    change (1 : Int) ≤ _
    omega

/-! ### Runs -/

section Runs

variable {interval : UInt64} {events : List (WorldEvent streamlog)}

/-- The server after these events. -/
abbrev served (interval : UInt64) (events : List (WorldEvent streamlog)) : World streamlog :=
  Run.run World.step (World.start interval) events

/-- What the server finds when it is started again. -/
def found (interval : UInt64) (events : List (WorldEvent streamlog)) (next : UInt64) : KvStore :=
  (startEngine (served interval events).history.disk next).state

/-- The executions of these events. -/
abbrev executed (interval : UInt64) (events : List (WorldEvent streamlog)) :
    List (Execution streamlog) :=
  Run.trace World.step World.executes (World.start interval) events

theorem executed_concat (events : List (WorldEvent streamlog)) (event : WorldEvent streamlog) :
    executed interval (events ++ [event])
      = executed interval events ++ (served interval events).executes event := by
  rw [executed, Run.trace_append]
  exact congrArg _ (List.append_nil _)

/-- The server stays within the limits of its formats and counters, and dies between durable steps
only. -/
structure InBounds (interval : UInt64) (events : List (WorldEvent streamlog)) : Prop where
  persists : Run.Guarded World.step (World.Persists numbering) (World.start interval) events
  ids : events.countP WorldEvent.accepts < 2 ^ 32 - 1
  length : events.length < 9223372036854775807

theorem InBounds.front {front back : List (WorldEvent streamlog)}
    (hbounds : InBounds interval (front ++ back)) : InBounds interval front where
  persists := ((Run.guarded_append _).mp hbounds.persists).1
  ids := by
    have hids := hbounds.ids
    rw [List.countP_append] at hids
    omega
  length := by
    have hlength := hbounds.length
    rw [List.length_append] at hlength
    omega

theorem InBounds.continues (hbounds : InBounds interval events) :
    Continues (events.countP WorldEvent.accepts) (executed interval events)
      (served interval events) :=
  StreamLog.continues hbounds.persists hbounds.ids

theorem InBounds.few (hbounds : InBounds interval events) :
    (executed interval events).length < 9223372036854775807 :=
  Nat.lt_of_le_of_lt (length_trace_le (World.start interval) events) hbounds.length

/-- What a restart finds and what a live engine has is what the executions left. -/
theorem InBounds.store (hbounds : InBounds interval events) :
    (∀ next, found interval events next = after ((executed interval events).map Execution.op))
      ∧ ∀ engine ∈ (served interval events).history.engine,
        engine.state = after ((executed interval events).map Execution.op) := by
  have hruns := World.runs_atomic (World.Persists.atomic hbounds.persists)
  exact ⟨fun next => (store_eq_after hbounds.continues hruns next).1,
    (store_eq_after hbounds.continues hruns 0).2⟩

/-- The execution is of a request to publish to the topic. -/
def publishesTo (topic : List Char) (execution : Execution streamlog) : Bool :=
  execution.serving.request.any fun parts => isPub parts && topicOf parts = topic

/-- The request whose op the event executes does not publish to the topic. -/
def PassesBy (world : World streamlog) (event : WorldEvent streamlog) (topic : List Char) : Prop :=
  ∀ execution ∈ world.executes event, publishesTo topic execution = false

instance (world : World streamlog) (event : WorldEvent streamlog) (topic : List Char) :
    Decidable (PassesBy world event topic) :=
  inferInstanceAs (Decidable (∀ execution ∈ world.executes event, publishesTo topic execution = false))

/-- **The step lemma.** An event that publishes nothing to a topic leaves the topic as it is. -/
theorem sameTopic_step {event : WorldEvent streamlog}
    (hbounds : InBounds interval (events ++ [event])) {topic : List Char}
    (hpasses : PassesBy (served interval events) event topic) :
    SameTopic topic (after ((executed interval events).map Execution.op))
      (after ((executed interval (events ++ [event])).map Execution.op)) := by
  have hcontinues := hbounds.continues
  rw [executed_concat] at hcontinues ⊢
  have hone := length_executes_le (served interval events) event
  cases hnew : (served interval events).executes event with
  | nil =>
      rw [List.append_nil]
      exact ⟨rfl, fun _ => rfl⟩
  | cons execution more =>
      rw [hnew] at hone hcontinues
      obtain rfl := List.eq_nil_of_length_eq_zero (Nat.le_zero.mp (Nat.le_of_succ_le_succ hone))
      obtain ⟨parts, hrequest, hissued⟩ :=
        issued hcontinues (List.mem_append_right _ (List.mem_singleton_self execution))
      rw [List.map_append, List.map_singleton, after_concat]
      refine hissued.sameTopic (fun hpub htopic => ?_) _
      have hother := hpasses execution (by rw [hnew]; exact List.mem_cons_self)
      rw [publishesTo, hrequest] at hother
      have hneither : (isPub parts && decide (topicOf parts = topic)) = false := hother
      rw [hpub, htopic, decide_eq_true rfl] at hneither
      cases hneither

/-- **Offsets that are published.** Whatever the topics are called and however connections, crashes
between durable steps and restarts fall: acknowledgements of one topic carry different offsets, an
acknowledged message is under its offset in every later state, in the engine and for the next start,
and a step that publishes nothing to a topic changes neither its length nor its messages. -/
theorem published_offsets (hbounds : InBounds interval events) :
    ((served interval events).replies.Pairwise fun reply other => ∀ parts others offset place,
        Acknowledged reply parts offset → Acknowledged other others place →
          topicOf parts = topicOf others → offset ≠ place)
      ∧ (∀ front back, events = front ++ back →
        ∀ reply ∈ (served interval front).replies, ∀ parts offset, Acknowledged reply parts offset →
          (∀ engine ∈ (served interval events).history.engine,
              engine.state.map[messageKey (topicOf parts) offset]? = some (messageOf parts))
            ∧ ∀ next, (found interval events next).map[messageKey (topicOf parts) offset]?
              = some (messageOf parts))
      ∧ ∀ front event back, events = front ++ event :: back → ∀ topic,
        PassesBy (served interval front) event topic →
          (∀ engine ∈ (served interval front).history.engine,
              ∀ later ∈ (served interval (front ++ [event])).history.engine,
                SameTopic topic engine.state later.state)
            ∧ ∀ next, SameTopic topic (found interval front next)
              (found interval (front ++ [event]) next) := by
  refine ⟨offsets_differ hbounds.continues hbounds.few, ?_, ?_⟩
  · rintro front back rfl reply hreply parts offset hack
    have hlater : reply ∈ (served interval (front ++ back)).replies := by
      rw [served, Run.run_append]
      exact (World.replies_prefix_run back).subset hreply
    obtain ⟨hfound, hlive⟩ := hbounds.store
    have hkept := kept_of_acknowledged hbounds.continues hbounds.few hlater hack
    refine ⟨fun engine hengine => ?_, fun next => ?_⟩
    · rw [hlive engine hengine]
      exact hkept.message
    · rw [hfound next]
      exact hkept.message
  · rintro front event back rfl topic hpasses
    rw [List.append_cons] at hbounds
    have hstep := sameTopic_step hbounds.front hpasses
    obtain ⟨hfound, hlive⟩ := hbounds.front.front.store
    obtain ⟨hfound', hlive'⟩ := hbounds.front.store
    refine ⟨fun engine hengine later hlater => ?_, fun next => ?_⟩
    · rw [hlive engine hengine, hlive' later hlater]
      exact hstep
    · rw [hfound next, hfound' next]
      exact hstep

/-- **A topic is a log that grows at its end.** Whether its requests were answered or not: what a topic
holds in one state it holds in every later one, in the engine and for the next start, its length never
falls, and every message is within it. -/
theorem topic_append_only {front back : List (WorldEvent streamlog)}
    (hbounds : InBounds interval (front ++ back)) (topic : List Char) :
    (∀ engine ∈ (served interval front).history.engine,
        ∀ later ∈ (served interval (front ++ back)).history.engine,
          Extends topic engine.state later.state)
      ∧ ∀ next, Extends topic (found interval front next) (found interval (front ++ back) next) := by
  have hsplit : executed interval (front ++ back) = executed interval front
      ++ Run.trace World.step World.executes (served interval front) back := Run.trace_append back
  have hle : (executed interval front).length ≤ (executed interval (front ++ back)).length := by
    rw [hsplit, List.length_append]
    exact Nat.le_add_right _ _
  have hfront : ((executed interval (front ++ back)).map Execution.op).take
      (executed interval front).length = (executed interval front).map Execution.op := by
    rw [hsplit, List.map_append]
    exact List.take_left' (List.length_map _)
  have hextends := extends_of_le hbounds.continues hbounds.few topic hle
  rw [hfront, List.take_of_length_le (Nat.le_of_eq (List.length_map _))] at hextends
  obtain ⟨hfound, hlive⟩ := hbounds.front.store
  obtain ⟨hfound', hlive'⟩ := hbounds.store
  refine ⟨fun engine hengine later hlater => ?_, fun next => ?_⟩
  · rw [hlive engine hengine, hlive' later hlater]
    exact hextends
  · rw [hfound next, hfound' next]
    exact hextends

/-- One message is stored, the one in front of it is not yet, and the process has still to die. -/
theorem topic_append_only_publishAndRestart :
    (found 2 (publishAndRestart.take 13) 4).map[messageKey ['a'] 2]? = some (asBytes "y")
      ∧ (found 2 publishAndRestart 4).map[messageKey ['a'] 2]? = some (asBytes "y")
      ∧ lengthOf (found 2 (publishAndRestart.take 13) 4) ['a']
        ≤ lengthOf (found 2 publishAndRestart 4) ['a'] := by
  have hbounds : InBounds 2 (publishAndRestart.take 13 ++ publishAndRestart.drop 13) :=
    ⟨by decide +kernel, by decide +kernel, by decide +kernel⟩
  have hextends := (topic_append_only hbounds ['a']).2 4
  rw [List.take_append_drop] at hextends
  have hstored : (found 2 (publishAndRestart.take 13) 4).map[messageKey ['a'] 2]?
      = some (asBytes "y") := by
    decide +kernel
  exact ⟨hstored, hextends.messages 2 _ hstored, hextends.length⟩

/-- Behind three messages of one topic, one for a topic that is called like the first of them. -/
def publishElsewhere : List (WorldEvent streamlog) :=
  [.request 2 ["PUB".toList, "a:1".toList, ['w']], .send 2, .execute Faults.clean 0]

theorem published_offsets_elsewhere :
    (∀ next, (found 2 (publishAndRestart ++ publishElsewhere) next).map[messageKey ['a'] 1]?
        = some (asBytes "x"))
      ∧ ∀ next, SameTopic ['a']
        (found 2 (publishAndRestart ++ publishElsewhere.take 2) next)
        (found 2 (publishAndRestart ++ publishElsewhere.take 2 ++ [.execute Faults.clean 0]) next) := by
  have hbounds : InBounds 2 (publishAndRestart ++ publishElsewhere) :=
    ⟨by decide +kernel, by decide +kernel, by decide +kernel⟩
  have hmem : (some (pub 'x'), asBytes "OFFSET 1\r\n") ∈ shown (served 2 publishAndRestart) := by
    decide +kernel
  obtain ⟨reply, hreply, hfields⟩ := List.mem_map.mp hmem
  obtain ⟨hrequest, houtput⟩ := Prod.mk.inj hfields
  have hack : Acknowledged reply (pub 'x') 1 :=
    ⟨hrequest, by decide +kernel, houtput.trans (by decide +kernel)⟩
  obtain ⟨-, hkept, hsame⟩ := published_offsets hbounds
  refine ⟨(hkept publishAndRestart _ rfl reply hreply (pub 'x') 1 hack).2, ?_⟩
  refine (hsame (publishAndRestart ++ publishElsewhere.take 2) (.execute Faults.clean 0) [] ?_ ['a']
    ?_).2
  · rw [List.append_assoc]
    rfl
  · decide +kernel

end Runs

/-! ### A message that is lost -/

/-- A line that publishes a message of this length. -/
def widePub (size : Nat) : List (List Char) := ["PUB".toList, ['a'], List.replicate size 'a']

/-- It is published. -/
def publishWide (size : Nat) : List (WorldEvent streamlog) :=
  [.accept 0 1, .request 0 (widePub size)] ++ call 0 ++ call 0

/-- It is acknowledged, and the process dies. -/
def publishAndDie (size : Nat) : List (WorldEvent streamlog) :=
  publishWide size ++ [.reply 0, .crash]

theorem length_encode_storeOp (size : Nat) :
    (storeOp 1 0 (widePub size) 1).encode.length = size + 24 := by
  have hkey : (asBytes (messageKey ['a'] 1)).length = 5 := by decide +kernel
  have hmessage : (messageOf (widePub size)).length = size := by
    rw [messageOf, widePub]
    exact (congrArg List.length (asBytes_replicate size)).trans List.length_replicate
  have hlength := Op.length_encode_set 1 2 (messageKey ['a'] 1) (messageOf (widePub size))
  rw [hkey, hmessage] at hlength
  have hop : (storeOp 1 0 (widePub size) 1).encode.length = 5 + size + 19 := hlength
  omega

theorem fits_storeOp {size : Nat} (hsize : size < 2 ^ 32) : (storeOp 1 0 (widePub size) 1).Fits := by
  have hkey : KeyFits (messageKey ['a'] 1) := by decide +kernel
  have hmessage : messageOf (widePub size) = List.replicate size 97 := asBytes_replicate size
  refine ⟨hkey, ?_⟩
  rwa [hmessage, ValueFits, List.length_replicate]

/-- Of a message that is one byte too long the next start has the offset only. -/
theorem found_publishAndDie {size : Nat} (hsize : size + 24 = 2 ^ 32) (next : UInt64) :
    found 8 (publishAndDie size) next = after [takeOp 1 0 (widePub size)] := by
  have hdisk : (served 8 (publishAndDie size)).history.disk
      = { oplog := some (encodeRecord 2 (takeOp 1 0 (widePub size)).encode
            ++ encodeRecord 3 (storeOp 1 0 (widePub size) 1).encode)
          snapshot := none } := rfl
  have htake : Op.decode (takeOp 1 0 (widePub size)).encode = some (takeOp 1 0 (widePub size)) := by
    refine Op.decode_encode ?_
    change KeyFits (counterKey ['a'])
    decide +kernel
  have hfirst : PayloadFits (takeOp 1 0 (widePub size)).encode := by
    change (Op.encode { client := 1, seq := 1, kind := .incr (counterKey ['a']) 1 }).length < 2 ^ 32
    decide +kernel
  have hlength := length_encode_storeOp size
  rw [hsize] at hlength
  have hstore : Op.decode ((storeOp 1 0 (widePub size) 1).encode.take (2 ^ 32 - 1)) = none := by
    rw [Op.decode, (readOp_exact (fits_storeOp (by omega))).rejects _ (by omega), Option.map_none]
  have hsplit := @split_encodeRecord 2 _ hfirst
  have hread : readLog (served 8 (publishAndDie size)).history.disk
      = [(2, (takeOp 1 0 (widePub size)).encode),
        (3, (storeOp 1 0 (widePub size) 1).encode.take (2 ^ 32 - 1))] := by
    rw [hdisk]
    change (split (_ ++ _)).1 = _
    rw [split_append (congrArg Prod.snd hsplit), hsplit, split_encodeRecord_of_length_eq hlength]
    rfl
  have hrecords : (served 8 (publishAndDie size)).history.disk.records
      = [(2, takeOp 1 0 (widePub size))] := by
    rw [Disk.records, hread, List.filterMap_cons, htake, List.filterMap_cons, hstore]
    rfl
  rw [found, startEngine_eq_recover, recover_toCore, Disk.recovered, Disk.store, hrecords, hdisk]
  rfl

theorem wide_message_lost_of_size {size : Nat} (hsize : size + 24 = 2 ^ 32) :
    Run.Guarded World.step (fun world event => world.Admits numbering event
        ∧ world.Delivers (fun _ event => event.RecordAtomic) event) (World.start 8) (publishAndDie size)
      ∧ (KeyFits (counterKey ['a']) ∧ KeyFits (messageKey ['a'] 1))
      ∧ ∃ reply ∈ (served 8 (publishAndDie size)).replies, Acknowledged reply (widePub size) 1
        ∧ ∀ next, (found 8 (publishAndDie size) next).map[messageKey ['a'] 1]? = none := by
  refine ⟨?_, ⟨by decide +kernel, by decide +kernel⟩, ?_⟩
  · refine ⟨⟨⟨rfl, rfl, rfl⟩, trivial⟩, ⟨rfl, trivial⟩, ⟨trivial, trivial⟩, ⟨trivial, ?_⟩,
      ⟨trivial, trivial⟩, ⟨trivial, trivial⟩, ⟨trivial, ?_⟩, ⟨trivial, trivial⟩, ⟨trivial, trivial⟩,
      ⟨trivial, trivial⟩, trivial⟩
    all_goals
      rintro record ⟨⟩
      exact ⟨trivial, by decide⟩
  · have hphase : ((served 8 (publishWide size)).threads 0).phase
        = .serving (.ret { conn := (2 : UInt64), output := asBytes ("OFFSET " ++ showI64 1 ++ "\r\n") }) :=
      rfl
    have hreplies : (served 8 (publishAndDie size)).replies
        = (served 8 (publishWide size)).replies ++ [{
            client := ((served 8 (publishWide size)).threads 0).client
            conn := ((served 8 (publishWide size)).threads 0).conn
            request := ((served 8 (publishWide size)).threads 0).request
            earlier := ((served 8 (publishWide size)).threads 0).earlier
            answers := ((served 8 (publishWide size)).threads 0).answers
            logged := ((served 8 (publishWide size)).threads 0).logged
            output := asBytes ("OFFSET " ++ showI64 1 ++ "\r\n") }] := by
      rw [served, publishAndDie, Run.run_append, Run.run_cons, World.step, World.reply, hphase]
      rfl
    rw [hreplies]
    refine ⟨_, List.mem_append_right _ (List.mem_singleton_self _), ⟨rfl, rfl, rfl⟩, fun next => ?_⟩
    rw [found_publishAndDie hsize]
    change (after [{ client := 1, seq := 1, kind := .incr (counterKey ['a']) 1 }]).map[
      messageKey ['a'] 1]? = none
    decide +kernel

/-- **An acknowledged message is lost.** A message of `2^32 - 24` bytes is acknowledged with the first
offset of its topic, and after a crash the next start has nothing under it. -/
theorem wide_message_lost :
    let events := publishAndDie (2 ^ 32 - 24)
    Run.Guarded World.step (fun world event => world.Admits numbering event
        ∧ world.Delivers (fun _ event => event.RecordAtomic) event) (World.start 8) events
      ∧ (KeyFits (counterKey ['a']) ∧ KeyFits (messageKey ['a'] 1))
      ∧ ∃ reply ∈ (served 8 events).replies, Acknowledged reply (widePub (2 ^ 32 - 24)) 1
        ∧ ∀ next, (found 8 events next).map[messageKey ['a'] 1]? = none :=
  wide_message_lost_of_size (by decide)

end StreamLog

end OneBarrier
