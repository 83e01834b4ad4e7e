import HaloVector.Proofs.Answers

/-!
# Transcripts

What a program does with its communicator, written down use by use, together with what it is
answered. Answers are the numbers of tickets and what the waits end with. All else is up to the
program.

* `Program.usesOver` is the transcript of a run over a transport.
* `Program.Conducts` says what holds of the transcript and of the value for all answers.
  `Program.Conducts.runOver` takes it to every transport.
* `conducts_exchangeBytes` gives the transcript of an exchange, and what it comes to, from the
  answers of the peers.
* `exchange_calls_fixed`: an exchange uses its communicator in the same way, whatever comes.
-/

namespace HaloVector

/-- One use of a communicator, and what it was answered. -/
inductive Use
  | posted (ticket : Ticket) (length : Nat)
  | sent (target : Nat) (tag : Tag) (data : Bytes)
  | awaited (ticket : Ticket) (reply : Option Bytes)
  | flushed (target : Nat) (tag : Tag)
deriving DecidableEq, Repr

/-- The use without the answer. -/
def Use.call : Use → Program.Call
  | posted ticket length => .posted ticket.source ticket.tag length
  | sent target tag data => .sent target tag data
  | awaited ticket _ => .awaited ticket.source ticket.tag
  | flushed target tag => .flushed target tag

namespace Program

variable {α β σ : Type}

/-- The uses that a program makes of a transport until it ends. -/
def usesOver (t : Transport σ) : Program α → σ → List Use
  | done _, _ => []
  | halt _, _ => []
  | log _ _ next, s => next.usesOver t s
  | post source tag length next, s =>
    let (number, later) := t.post source tag length s
    .posted ⟨source, tag, number⟩ length :: (next ⟨source, tag, number⟩).usesOver t later
  | send target tag data next, s =>
    .sent target tag data :: next.usesOver t (t.send target tag data s)
  | await ticket next, s =>
    let (reply, later) := t.await ticket s
    .awaited ticket reply :: (next reply).usesOver t later
  | flush target tag next, s => .flushed target tag :: next.usesOver t (t.flush target tag s)

/-- The program comes to an end with a value whatever it is answered, and this holds of the uses
that it made and the value. -/
def Conducts : Program α → (List Use → α → Prop) → Prop
  | done value, good => good [] value
  | halt _, _ => False
  | log _ _ next, good => next.Conducts good
  | post source tag length next, good => ∀ number,
    (next ⟨source, tag, number⟩).Conducts fun uses =>
      good (.posted ⟨source, tag, number⟩ length :: uses)
  | send target tag data next, good =>
    next.Conducts fun uses => good (.sent target tag data :: uses)
  | await ticket next, good => ∀ reply,
    (next reply).Conducts fun uses => good (.awaited ticket reply :: uses)
  | flush target tag next, good => next.Conducts fun uses => good (.flushed target tag :: uses)

theorem Conducts.runOver {p : Program α} {good : List Use → α → Prop}
    (conducted : p.Conducts good) (t : Transport σ) (s : σ) :
    ∃ value, (p.runOver t s).1 = .finished value ∧ good (p.usesOver t s) value := by
  induction p generalizing good s with
  | done value => exact ⟨value, rfl, conducted⟩
  | halt why => exact conducted.elim
  | log level text next ih => exact ih conducted s
  | post source tag length next ih => exact ih _ (conducted _) _
  | send target tag data next ih => exact ih conducted _
  | await ticket next ih => exact ih _ (conducted _) _
  | flush target tag next ih => exact ih conducted _

theorem Conducts.mono {p : Program α} {good better : List Use → α → Prop}
    (conducted : p.Conducts better)
    (weaker : ∀ uses value, better uses value → good uses value) : p.Conducts good := by
  induction p generalizing good better with
  | done value => exact weaker _ _ conducted
  | halt why => exact conducted
  | log level text next ih => exact ih conducted weaker
  | post source tag length next ih =>
    exact fun number => ih _ (conducted number) fun _ => weaker _
  | send target tag data next ih => exact ih conducted fun _ => weaker _
  | await ticket next ih => exact fun reply => ih _ (conducted reply) fun _ => weaker _
  | flush target tag next ih => exact ih conducted fun _ => weaker _

/-- What is done one after the other is written down one after the other. -/
theorem Conducts.bind {p : Program β} {f : β → Program α} {middle : List Use → β → Prop}
    {good : List Use → α → Prop} (first : p.Conducts middle)
    (second : ∀ front value, middle front value →
      (f value).Conducts fun back => good (front ++ back)) : (p.bind f).Conducts good := by
  induction p generalizing good middle with
  | done value => exact second [] value first
  | halt why => exact first
  | log level text next ih => exact ih first second
  | post source tag length next ih =>
    exact fun number => ih _ (first number) fun _ => second _
  | send target tag data next ih => exact ih first fun _ => second _
  | await ticket next ih => exact fun reply => ih _ (first reply) fun _ => second _
  | flush target tag next ih => exact ih first fun _ => second _

/-- If each item has one use, these follow each other. -/
theorem conducts_forM {γ : Type} {f : γ → Program Unit} {use : γ → Use} {items : List γ}
    (each : ∀ item, (f item).Conducts fun uses _ => uses = [use item]) :
    (items.forM f).Conducts fun uses _ => uses = items.map use := by
  induction items with
  | nil => exact rfl
  | cons item rest ih =>
    refine (each item).bind ?_
    rintro _ _ rfl
    exact ih.mono fun uses _ same => congrArg (use item :: ·) same

end Program

namespace Collective

variable {α β : Type}

/-- After a failure nothing is used any more. -/
theorem conducts_bind {p : Collective β} {f : β → Collective α}
    {middle : List Use → Except VectorError β → Prop}
    {good : List Use → Except VectorError α → Prop} (first : p.run.Conducts middle)
    (failed : ∀ uses e, middle uses (.error e) → good uses (.error e))
    (second : ∀ front value, middle front (.ok value) →
      (f value).run.Conducts fun back => good (front ++ back)) :
    (p >>= f).run.Conducts good := by
  rw [run_bind]
  refine first.bind fun front outcome known => ?_
  cases outcome with
  | error e =>
    show good (front ++ []) _
    rw [List.append_nil]
    exact failed front e known
  | ok value => exact second front value known

/-- What follows makes no use of the communicator. -/
theorem conducts_bind_quiet {p : Collective β} {f : β → Collective α} {g : β → α}
    {good : List Use → Except VectorError α → Prop}
    (conducted : p.run.Conducts fun uses outcome => good uses (outcome.map g))
    (quiet : ∀ value, (f value).run.Conducts fun uses outcome =>
      uses = [] ∧ outcome = .ok (g value)) : (p >>= f).run.Conducts good := by
  refine conducts_bind conducted (fun _ _ known => known) fun front value known => ?_
  refine (quiet value).mono ?_
  rintro _ _ ⟨rfl, rfl⟩
  rw [List.append_nil]
  exact known

end Collective

/-! ## Exchanges -/

/-- What a rank is answered in one exchange: the numbers of its tickets, and what its waits end
with, each by the peer. -/
structure Answers where
  number : Nat → Nat
  reply : Nat → Option Bytes

/-- The uses that make up one exchange: receives are posted, messages are sent, and then both are
waited for in the same order. -/
def roundUses (sources targets : List Nat) (tag : Tag) (length : Nat → Nat) (data : Nat → Bytes)
    (answers : Answers) : List Use :=
  sources.map (fun peer => .posted ⟨peer, tag, answers.number peer⟩ (length peer)) ++
  targets.map (fun peer => .sent peer tag (data peer)) ++
  sources.map (fun peer => .awaited ⟨peer, tag, answers.number peer⟩ (answers.reply peer)) ++
  targets.map (fun peer => .flushed peer tag)

theorem roundUses_congr {sources targets : List Nat} {tag : Tag} {length long : Nat → Nat}
    {data same : Nat → Bytes} (lengths : ∀ peer ∈ sources, length peer = long peer)
    (contents : ∀ peer ∈ targets, data peer = same peer) (answers : Answers) :
    roundUses sources targets tag length data answers =
      roundUses sources targets tag long same answers := by
  have posted : sources.map (fun peer => Use.posted ⟨peer, tag, answers.number peer⟩
      (length peer)) = sources.map fun peer => .posted ⟨peer, tag, answers.number peer⟩
      (long peer) := List.map_congr_left fun peer member => by rw [lengths peer member]
  have sent : targets.map (fun peer => Use.sent peer tag (data peer)) =
      targets.map fun peer => .sent peer tag (same peer) :=
    List.map_congr_left fun peer member => by rw [contents peer member]
  rw [roundUses, posted, sent, roundUses]

/-- A value for one more item makes no difference to the others. -/
theorem map_cons_update {β γ : Type} (g : Nat → β → γ) (f : Nat → β) {first : Nat}
    {rest : List Nat} (absent : first ∉ rest) (value : β) :
    (first :: rest).map (fun item => g item (Function.update f first value item)) =
      g first value :: rest.map fun item => g item (f item) := by
  rw [List.map_cons, Function.update_self]
  refine congrArg _ (List.map_congr_left fun item member => ?_)
  rw [Function.update_of_ne (ne_of_mem_of_not_mem member absent)]

theorem conducts_postReceives (incoming : Layout) (tag : Tag) {peers : List Nat}
    (distinct : (incoming.nonempty peers).Nodup) :
    (postReceives incoming tag peers).Conducts fun uses tickets => ∃ number : Nat → Nat,
      tickets = (incoming.nonempty peers).map (fun peer => (peer, ⟨peer, tag, number peer⟩)) ∧
      uses = (incoming.nonempty peers).map fun peer =>
        .posted ⟨peer, tag, number peer⟩ (incoming.count peer) := by
  unfold postReceives
  generalize incoming.nonempty peers = sources at distinct
  induction sources with
  | nil => exact ⟨fun _ => 0, rfl, rfl⟩
  | cons source rest ih =>
    obtain ⟨absent, apart⟩ := List.nodup_cons.1 distinct
    rw [List.mapM_cons]
    intro first
    refine (ih apart).bind ?_
    rintro _ _ ⟨number, rfl, rfl⟩
    refine ⟨Function.update number source first, ?_, ?_⟩
    · exact (map_cons_update (fun peer number => (peer, (⟨peer, tag, number⟩ : Ticket))) number
        absent first).symm
    · rw [List.append_nil]
      exact (map_cons_update (fun peer number => Use.posted ⟨peer, tag, number⟩
        (incoming.count peer)) number absent first).symm

theorem conducts_sendParts (buffer : Bytes) (outgoing : Layout) (tag : Tag) (peers : List Nat) :
    (sendParts buffer outgoing tag peers).Conducts fun uses _ =>
      uses = (outgoing.nonempty peers).map fun peer => .sent peer tag (outgoing.part buffer peer) :=
  Program.conducts_forM fun _ => rfl

theorem conducts_flushParts (outgoing : Layout) (tag : Tag) (peers : List Nat) :
    (flushParts outgoing tag peers).Conducts fun uses _ =>
      uses = (outgoing.nonempty peers).map fun peer => .flushed peer tag :=
  Program.conducts_forM fun _ => rfl

/-- Takes over what some peers have answered, in their order. -/
def acceptAll (incoming : Layout) (reply : Nat → Option Bytes) (peers : List Nat)
    (received : Attempt Bytes) : Attempt Bytes :=
  peers.foldl (fun received peer => accept incoming peer (peerPart incoming peer (reply peer))
    received) received

theorem acceptAll_congr {incoming : Layout} {reply other : Nat → Option Bytes} {peers : List Nat}
    (same : ∀ peer ∈ peers, reply peer = other peer) (received : Attempt Bytes) :
    acceptAll incoming reply peers received = acceptAll incoming other peers received :=
  List.foldl_ext _ _ _ fun _ peer member => by rw [same peer member]

/-- Every receive is waited for, also after a fault. -/
theorem conducts_awaitParts (me : Nat) (incoming : Layout) (ticket : Nat → Ticket)
    {peers : List Nat} (distinct : peers.Nodup) (received : Attempt Bytes) :
    (awaitParts me incoming (peers.map fun peer => (peer, ticket peer)) received).Conducts
      fun uses result => ∃ reply : Nat → Option Bytes,
        uses = peers.map (fun peer => .awaited (ticket peer) (reply peer)) ∧
        result = acceptAll incoming reply peers received := by
  induction peers generalizing received with
  | nil => exact ⟨fun _ => none, rfl, rfl⟩
  | cons peer rest ih =>
    obtain ⟨absent, apart⟩ := List.nodup_cons.1 distinct
    intro first
    refine (ih apart (accept incoming peer (peerPart incoming peer first) received)).mono ?_
    rintro _ _ ⟨reply, rfl, rfl⟩
    refine ⟨Function.update reply peer first, ?_, ?_⟩
    · exact (map_cons_update (fun other => Use.awaited (ticket other)) reply absent first).symm
    · show acceptAll incoming reply rest _ = acceptAll incoming _ rest (accept incoming peer
        (peerPart incoming peer (Function.update reply peer first peer)) received)
      rw [Function.update_self]
      exact acceptAll_congr (fun other member =>
        (Function.update_of_ne (ne_of_mem_of_not_mem member absent) _ _).symm) _

section exchange

variable (c : Communicator) (sent : Bytes) (outgoing : Layout) (buffer : Bytes)
  (incoming : Layout) (tag : Tag)

/-- What an exchange comes to if the peers answer so. -/
def tally (reply : Nat → Option Bytes) : Attempt Bytes :=
  let me := c.topology.rank
  acceptAll incoming reply (incoming.nonempty c.topology.peers)
    (accept incoming me (ownPart me sent outgoing incoming) ⟨buffer, .ok ()⟩)

variable {sent outgoing buffer incoming} in
theorem conducts_exchangeBytes
    (fits : checkLayouts c.topology.size sent outgoing buffer incoming = .ok ()) :
    (exchangeBytes c sent outgoing buffer incoming tag).Conducts fun uses received =>
      ∃ answers : Answers,
        uses = roundUses (incoming.nonempty c.topology.peers)
          (outgoing.nonempty c.topology.peers) tag incoming.count (outgoing.part sent) answers ∧
        received = tally c sent outgoing buffer incoming answers.reply := by
  unfold exchangeBytes
  simp only [fits]
  have distinct := Group.nodup_nonempty_peers incoming c.topology
  refine (conducts_postReceives incoming tag distinct).bind ?_
  rintro _ _ ⟨number, rfl, rfl⟩
  refine (conducts_sendParts sent outgoing tag _).bind ?_
  rintro _ _ rfl
  refine (conducts_awaitParts _ incoming (fun peer => ⟨peer, tag, number peer⟩) distinct _).bind ?_
  rintro _ _ ⟨reply, rfl, rfl⟩
  refine (conducts_flushParts outgoing tag _).bind ?_
  rintro _ _ rfl
  exact ⟨⟨number, reply⟩, by simp [roundUses], rfl⟩

theorem exchangeBytes_refused {refusal : VectorError}
    (refused : checkLayouts c.topology.size sent outgoing buffer incoming = .error refusal) :
    exchangeBytes c sent outgoing buffer incoming tag = .done ⟨buffer, .error refusal⟩ := by
  unfold exchangeBytes
  simp only [refused]
  rfl

/-- The peers to which elements belong, from the lowest on. -/
structure PeersWith (t : Topology) (l : Layout) (peers : List Nat) : Prop where
  ascending : peers.Pairwise (· < ·)
  mem_iff : ∀ peer, peer ∈ peers ↔ peer < t.size ∧ peer ≠ t.rank ∧ 0 < l.count peer

theorem peersWith_nonempty (t : Topology) (l : Layout) : PeersWith t l (l.nonempty t.peers) :=
  ⟨(List.pairwise_lt_range.filter _).filter _, fun _ => Group.mem_nonempty_peers⟩

/-- What a rank does in an exchange without the answers. -/
theorem map_call_roundUses (sources targets : List Nat) (length : Nat → Nat) (data : Nat → Bytes)
    (answers other : Answers) :
    (roundUses sources targets tag length data answers).map Use.call =
      (roundUses sources targets tag length data other).map Use.call := by
  simp only [roundUses, List.map_append, List.map_map, Function.comp_def, Use.call]

end exchange

/-- Once its layouts are accepted an exchange posts a receive for each peer that has something for
it, sends to each peer what is for that peer, and then waits for each receive and for each message,
all in the order of ranks. So it is over any two transports, whatever these deliver. Without
acceptance nothing is done at all. -/
theorem exchange_calls_fixed (c : Communicator) (sent : Bytes) (outgoing : Layout)
    (buffer : Bytes) (incoming : Layout) (tag : Tag) :
    let p := exchangeBytes c sent outgoing buffer incoming tag
    let accepted :=
      outgoing.check "all-to-all send layout" c.topology.size sent.length = .ok () ∧
      incoming.check "all-to-all recv layout" c.topology.size buffer.length = .ok ()
    (accepted → ∃ sources targets : List Nat,
      PeersWith c.topology incoming sources ∧ PeersWith c.topology outgoing targets ∧
      (∀ {σ : Type} (t : Transport σ) (s : σ), ∃ received answers,
        (p.runOver t s).1 = .finished received ∧
        p.usesOver t s = roundUses sources targets tag incoming.count
          (fun peer => slice sent (outgoing.offset peer) (outgoing.count peer)) answers) ∧
      ∀ {σ τ : Type} (t : Transport σ) (s : σ) (u : Transport τ) (r : τ),
        (p.usesOver t s).map Use.call = (p.usesOver u r).map Use.call) ∧
    (¬accepted → ∃ refusal, ∀ {σ : Type} (t : Transport σ) (s : σ),
      (p.runOver t s).1 = .finished ⟨buffer, .error refusal⟩ ∧ p.usesOver t s = []) := by
  intro p accepted
  refine ⟨fun fits => ?_, fun unfit => ?_⟩
  · have conducted := conducts_exchangeBytes c tag (checkLayouts_eq_ok_iff.2 fits)
    refine ⟨_, _, peersWith_nonempty c.topology incoming, peersWith_nonempty c.topology outgoing,
      fun t s => ?_, fun t s u r => ?_⟩
    · obtain ⟨received, ended, answers, uses, -⟩ := conducted.runOver t s
      exact ⟨received, answers, ended, uses⟩
    · obtain ⟨_, -, answers, here, -⟩ := conducted.runOver t s
      obtain ⟨_, -, others, there, -⟩ := conducted.runOver u r
      rw [here, there]
      exact map_call_roundUses ..
  · cases refused : checkLayouts c.topology.size sent outgoing buffer incoming with
    | ok => exact absurd (checkLayouts_eq_ok_iff.1 refused) unfit
    | error refusal =>
      have ended : p = .done ⟨buffer, .error refusal⟩ := exchangeBytes_refused c _ _ _ _ tag refused
      rw [ended]
      exact ⟨refusal, fun t s => ⟨rfl, rfl⟩⟩

/-- The middle one of three ranks has something for both others, and expects something from the
first and from itself, for whom it has nothing. -/
def unevenExchange (buffer : Bytes) : Program (Attempt Bytes) :=
  exchangeBytes (.member 1 3) [1, 2, 3, 4] ⟨[1, 0, 2], [0, 0, 2]⟩ buffer ⟨[2, 1, 0], [0, 2, 0]⟩
    default

theorem exchange_calls_fixed_uneven :
    (∀ {σ : Type} (t : Transport σ) (s : σ),
      ((unevenExchange [9, 9, 9]).usesOver t s).map Use.call =
        [.posted 0 default 2, .sent 0 default [1], .sent 2 default [3, 4], .awaited 0 default,
          .flushed 0 default, .flushed 2 default]) ∧
    ∃ refusal, ∀ {σ : Type} (t : Transport σ) (s : σ),
      ((unevenExchange [9, 9]).runOver t s).1 = .finished ⟨[9, 9], .error refusal⟩ ∧
        (unevenExchange [9, 9]).usesOver t s = [] := by
  obtain ⟨fixed, -⟩ := exchange_calls_fixed (.member 1 3) [1, 2, 3, 4] ⟨[1, 0, 2], [0, 0, 2]⟩
    [9, 9, 9] ⟨[2, 1, 0], [0, 2, 0]⟩ default
  obtain ⟨-, idle⟩ := exchange_calls_fixed (.member 1 3) [1, 2, 3, 4] ⟨[1, 0, 2], [0, 0, 2]⟩
    [9, 9] ⟨[2, 1, 0], [0, 2, 0]⟩ default
  obtain ⟨_, _, -, -, -, same⟩ := fixed ⟨by decide, by decide⟩
  exact ⟨fun t s => (same t s Script.transport (.ofReplies [])).trans rfl, idle (by decide)⟩

end HaloVector
