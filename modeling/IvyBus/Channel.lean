import IvyBus.Lib.Announce
import IvyBus.Dispatch
import IvyBus.Network

namespace IvyBus.Network

open Lib Ivy

variable {Code : Type} {engine : Engine Code}

def bindings (s : Ivy Code) : List (Int32 × Str) := s.msgRecv.map fun msg => (msg.id, msg.regexp)

def note (m : Message) : Note Int32 Str :=
  match m.kind with
  | .addRegexp => .put m.id m.text
  | .delRegexp => .drop m.id
  | _ => .skip

def puts (ms : List Message) : List Int32 := (ms.map note).flatMap Note.puts

structure Sent (engine : Engine Code) (m : Message) : Prop where
  kind : m.kind ∈ [.startRegexp, .addRegexp, .delRegexp, .endRegexp, .error, .msg]
  compiles : m.kind = .addRegexp → ∃ code, engine.compile m.text = .ok code

def Open (s : Ivy Code) (c : Handle) : Prop :=
  ∃ clnt, s.findClient c = some clnt ∧ clnt.ignoreSubsequentMsg = false

/-- The sender has the connection; the receiver has no filter and reads the connection, or will
accept it. -/
structure Active (sender receiver : Ivy Code) (c : Handle) (waits : Prop) : Prop where
  node : (sender.findClient c).isSome
  unfiltered : receiver.filter.messagesClasses = []
  reads : waits ∨ Open receiver c

/-- The ids that the receiver knows and those on their way come from the counter of the sender,
and come once. -/
structure Flow (engine : Engine Code) (sender receiver : Ivy Code) (c : Handle)
    (ms : List Message) : Prop where
  sent : ∀ m ∈ ms, Sent engine m
  nodup : (names (receiver.registered c) (ms.map note)).Nodup
  below : ∀ i ∈ names (receiver.registered c) (ms.map note), i.toInt < sender.recvId.toInt

/-- The lines on their way complete what the receiver has registered to the bindings of the
sender. -/
def Channel (engine : Engine Code) (sender receiver : Ivy Code) (c : Handle) (lines : List Str)
    (waits : Prop) : Prop :=
  ∃ ms : List Message, lines = ms.map Message.line ∧ Flow engine sender receiver c ms ∧
    (Active sender receiver c waits →
      (replay (receiver.registered c) (ms.map note)).Perm (bindings sender))

/-- What an agent sends over a connection keeps up with its bindings. -/
structure Sends (engine : Engine Code) (s s' : Ivy Code) (c : Handle) (ms : List Message) :
    Prop where
  lines_eq : linesTo c (s'.outputs.drop s.outputs.length) = ms.map Message.line
  sent : ∀ m ∈ ms, Sent engine m
  nodes : (s'.findClient c).isSome → (s.findClient c).isSome
  silent : s.findClient c = none → ms = []
  recvId_le : s.recvId.toInt ≤ s'.recvId.toInt
  nodup : (puts ms).Nodup
  new : ∀ i ∈ puts ms, s.recvId.toInt ≤ i.toInt ∧ i.toInt < s'.recvId.toInt
  replay_perm : (s.findClient c).isSome →
    (replay (bindings s) (ms.map note)).Perm (bindings s')

section Channel

variable {s s' r r' : Ivy Code} {c : Handle} {lines : List Str} {waits : Prop}
  {ms ms' : List Message}

theorem Flow.append (h : Flow engine s r c ms) (h' : Sends engine s s' c ms') :
    Flow engine s' r c (ms ++ ms') := by
  have hnames : names (r.registered c) ((ms ++ ms').map note) =
      names (r.registered c) (ms.map note) ++ puts ms' := by
    rw [List.map_append, names_append]
    rfl
  constructor
  · intro m hm
    rcases List.mem_append.mp hm with hm | hm
    · exact h.sent m hm
    · exact h'.sent m hm
  · rw [hnames, List.nodup_append]
    refine ⟨h.nodup, h'.nodup, ?_⟩
    rintro i hi j hj rfl
    exact Int.lt_irrefl _ (Int.lt_of_le_of_lt (h'.new i hj).1 (h.below i hi))
  · intro i hi
    rw [hnames] at hi
    rcases List.mem_append.mp hi with hi | hi
    · exact Int.lt_of_lt_of_le (h.below i hi) h'.recvId_le
    · exact (h'.new i hi).2

theorem Channel.sends (h : Channel engine s r c lines waits) (h' : Sends engine s s' c ms') :
    Channel engine s' r c (lines ++ linesTo c (s'.outputs.drop s.outputs.length)) waits := by
  obtain ⟨ms, rfl, hflow, hperm⟩ := h
  refine ⟨ms ++ ms', ?_, hflow.append h', fun hactive => ?_⟩
  · rw [h'.lines_eq, List.map_append]
  · have hnode := h'.nodes hactive.node
    rw [List.map_append, replay_append]
    exact (perm_replay (hperm { hactive with node := hnode }) _).trans (h'.replay_perm hnode)

theorem Channel.receiver {waits' : Prop} (h : Channel engine s r c lines waits)
    (hreg : r'.registered c = r.registered c)
    (hactive : Active s r' c waits' → Active s r c waits) :
    Channel engine s r' c lines waits' := by
  obtain ⟨ms, hlines, hflow, hperm⟩ := h
  refine ⟨ms, hlines, ⟨hflow.sent, ?_, ?_⟩, fun hactive' => ?_⟩
  · rw [hreg]
    exact hflow.nodup
  · rw [hreg]
    exact hflow.below
  · rw [hreg]
    exact hperm (hactive hactive')

theorem Channel.hears (h : Channel engine s r c lines waits)
    (hreg : r'.registered c = r.registered c) (hfilter : r'.filter = r.filter)
    (hopen : Open r' c → Open r c) : Channel engine s r' c lines waits :=
  h.receiver hreg fun hactive =>
    ⟨hactive.node, hfilter ▸ hactive.unfiltered, hactive.reads.imp_right hopen⟩

theorem Channel.lose (h : Channel engine s r c lines waits) (hreg : r'.registered c = [])
    (hclosed : ¬ (waits ∨ Open r' c)) : Channel engine s r' c lines waits := by
  obtain ⟨ms, hlines, hflow, -⟩ := h
  have hsub : (names (r'.registered c) (ms.map note)).Sublist
      (names (r.registered c) (ms.map note)) := by
    rw [hreg]
    exact List.sublist_append_right ..
  exact ⟨ms, hlines, ⟨hflow.sent, hflow.nodup.sublist hsub, fun i hi =>
    hflow.below i (hsub.subset hi)⟩, fun hactive => absurd hactive.reads hclosed⟩

theorem Channel.mono {waits' : Prop} (h : Channel engine s r c lines waits)
    (hwaits : waits' → waits) : Channel engine s r c lines waits' :=
  h.receiver rfl fun hactive => { hactive with reads := hactive.reads.imp_left hwaits }

structure Reads (r r' : Ivy Code) (c : Handle) (m : Message) : Prop where
  opens : Open r' c → Open r c
  filter_eq : r'.filter = r.filter
  registered_eq : r'.registered c = (note m).apply (r.registered c) ∨
    r'.registered c = r.registered c
  follows : Open r c → r.filter.messagesClasses = [] →
    r'.registered c = (note m).apply (r.registered c)

theorem Flow.reads {m : Message} (h : Flow engine s r c (m :: ms)) (h' : Reads r r' c m) :
    Flow engine s r' c ms := by
  refine ⟨fun m hm => h.sent m (List.mem_cons_of_mem _ hm), ?_, fun i hi => ?_⟩
  · rcases h'.registered_eq with heq | heq
    · rw [heq]
      exact names_apply_nodup h.nodup
    · rw [heq]
      exact h.nodup.sublist names_tail_sublist
  · rcases h'.registered_eq with heq | heq
    · rw [heq] at hi
      exact h.below i (mem_names_apply hi)
    · rw [heq] at hi
      exact h.below i (names_tail_sublist.subset hi)

theorem Channel.next {line : Str} (h : Channel engine s r c (line :: lines) waits) :
    ∃ m : Message, line = m.line ∧ Sent engine m ∧
      (∀ i ∈ (note m).puts, i ∉ (r.registered c).map Prod.fst) ∧
        ∀ r', ¬ waits → Reads r r' c m → Channel engine s r' c lines waits := by
  obtain ⟨ms, hlines, hflow, hperm⟩ := h
  obtain ⟨m, ms, rfl, hm, hrest⟩ := List.map_eq_cons_iff.mp hlines.symm
  refine ⟨m, hm.symm, hflow.sent m List.mem_cons_self, fun i hi hmem => ?_,
    fun r' hwaits hreads => ⟨ms, hrest.symm, hflow.reads hreads, fun hactive => ?_⟩⟩
  · have hnodup := hflow.nodup
    rw [names, List.nodup_append] at hnodup
    exact hnodup.2.2 i hmem i (List.mem_append_left _ hi) rfl
  · have hopen := hreads.opens (hactive.reads.resolve_left hwaits)
    have hfilter := hreads.filter_eq ▸ hactive.unfiltered
    rw [hreads.follows hopen hfilter]
    exact hperm ⟨hactive.node, hfilter, Or.inr hopen⟩

theorem Channel.quiet (h : Channel engine s r c [] waits) (hactive : Active s r c waits) :
    (r.registered c).Perm (bindings s) := by
  obtain ⟨ms, hlines, -, hperm⟩ := h
  rw [List.map_eq_nil_iff.mp hlines.symm] at hperm
  exact hperm hactive

end Channel

end IvyBus.Network
