import IvyBus.PointersLaws
import IvyBus.SendLaws
import IvyBus.Socket.Lines

namespace IvyBus.Unique

open Fifo Ivy Socket
open Congestion (IvyApplicationEvent switchState testState)

variable {Code : Type}

/-- The connections during a call, the lines that have been sent on them and the events that
`application_callback` has got. -/
structure Wires where
  sock : Handle → Socket.Client
  sent : List (Handle × Str)
  raised : List (Handle × IvyApplicationEvent)

def Wires.linesTo (x : Wires) (c : Handle) : List Str :=
  (x.sent.filter (·.1 = c)).map Prod.snd

def Wires.eventsOf (x : Wires) (c : Handle) : List IvyApplicationEvent :=
  (x.raised.filter (·.1 = c)).map Prod.snd

/-- What the kernel answers to the header and to the body of the lines to each client, in order. -/
abbrev Answers := Handle → Nat → SendResult × SendResult

/-- What is around a call: the engine, the kernel and whether there is an `application_callback`. -/
structure Setting (Code : Type) where
  engine : Engine Code
  answers : Answers
  application : Bool

variable (setting : Setting Code)

/-- The body of the loops over `clientList`; `told` is what follows from the state of the send. -/
def sendMatch (told : SendState → List IvyApplicationEvent) (bufferArg : Str) (x : Wires)
    (clnt : IvyClient) : Wires :=
  let c := clnt.client
  let (r1, r2) := setting.answers c (x.linesTo c).length
  let (client, state) := socketSendRawWithId (x.sock c) (header .msg clnt.id) bufferArg r1 r2
  { sock := Function.update x.sock c client
    sent := x.sent ++ [(c, header .msg clnt.id ++ bufferArg)]
    raised := x.raised ++ if setting.application then (told state).map (c, ·) else [] }

def regexpCall (x : Wires) (msg : MsgSndDict Code) (message : Str) : Wires × Nat :=
  match ivyBindingExec setting.engine msg.binding message with
  | none => (x, 0)
  | some groups =>
    msg.clientList.foldl
      (fun out clnt =>
        (sendMatch setting switchState (bufferArg message groups) out.1 clnt, out.2 + 1))
      (x, 0)

def regexpCallUnique (x : Wires) (msg : MsgSndDict Code) (message : Str) (clientUnique : Handle) :
    Wires × Nat :=
  match ivyBindingExec setting.engine msg.binding message with
  | none => (x, 0)
  | some groups =>
    msg.clientList.foldl
      (fun out clnt =>
        if clientUnique ≠ clnt.client then out
        else (sendMatch setting testState (bufferArg message groups) out.1 clnt, out.2 + 1))
      (x, 0)

def clientCall (s : Ivy Code) (c : Handle) (message : Str) (x : Wires) : Wires × Nat :=
  s.messSndByRegexp.foldl
    (fun out msgSendDict =>
      let call := regexpCallUnique setting out.1 msgSendDict message c
      (call.1, out.2 + call.2))
    (x, 0)

def ivySendMsg (s : Ivy Code) (buffer : Str) (x : Wires) : Wires × Nat :=
  if s.debugBinaryMsg && ivyCheckBuffer buffer then (x, 0)
  else
    s.messSndByRegexp.foldl
      (fun out msgSendDict =>
        let call := regexpCall setting out.1 msgSendDict buffer
        (call.1, out.2 + call.2))
      (x, 0)

def start (sock : Handle → Socket.Client) : Wires := ⟨sock, [], []⟩

/-- For one client `ClientCall` does what `IvySendMsg` does, and nothing for the others. -/
def Agrees (s : Ivy Code) (sock : Handle → Socket.Client) (c : Handle) (message : Str) : Prop :=
  let unique := clientCall setting s c message (start sock)
  let all := ivySendMsg setting s message (start sock)
  unique.1.linesTo c = all.1.linesTo c ∧ unique.1.eventsOf c = all.1.eventsOf c ∧
    (∀ d, d ≠ c → unique.1.linesTo d = []) ∧ unique.2 = (unique.1.linesTo c).length

def entryLines (engine : Engine Code) (c : Handle) (message : Str) (msg : MsgSndDict Code) :
    List (Str × Str) :=
  (ivyBindingExec engine msg.binding message).elim [] fun groups =>
    (own c msg).map fun clnt => (header .msg clnt.id, bufferArg message groups)

def linesFor (engine : Engine Code) (s : Ivy Code) (c : Handle) (message : Str) :
    List (Str × Str) :=
  s.messSndByRegexp.flatMap (entryLines engine c message)

/-- No line finds the FIFO of the connection without room for it. -/
def Roomy (answers : Nat → SendResult × SendResult) (client : Socket.Client) (n : Nat) :
    List (Str × Str) → Prop
  | [] => True
  | (id, arg) :: lines => Pointers.unfilled client id arg = true ∧
    Roomy answers (socketSendRawWithId client id arg (answers n).1 (answers n).2).1 (n + 1) lines

structure View where
  client : Socket.Client
  lines : List Str
  events : List IvyApplicationEvent

def Wires.view (x : Wires) (c : Handle) : View := ⟨x.sock c, x.linesTo c, x.eventsOf c⟩

def View.send (c : Handle) (told : SendState → List IvyApplicationEvent) (v : View)
    (line : Str × Str) : View :=
  let (r1, r2) := setting.answers c v.lines.length
  let (client, state) := socketSendRawWithId v.client line.1 line.2 r1 r2
  ⟨client, v.lines ++ [line.1 ++ line.2],
    v.events ++ if setting.application then told state else []⟩

section View

variable {setting} {c d : Handle} {told : SendState → List IvyApplicationEvent}
  {message bufferArg : Str} {s : Ivy Code} {x : Wires} {v : View} {clnt : IvyClient}

theorem view_sendMatch_self (h : clnt.client = c) :
    (sendMatch setting told bufferArg x clnt).view c =
      (x.view c).send setting c told (header .msg clnt.id, bufferArg) := by
  subst h
  have hraised (l : List IvyApplicationEvent) : ((l.map (clnt.client, ·)).filter
      (·.1 = clnt.client)).map Prod.snd = l := by
    simp [List.filter_map, Function.comp_def]
  simp only [sendMatch, Wires.view, View.send, Wires.linesTo, Wires.eventsOf, List.filter_append,
    List.map_append, Function.update_self]
  congr 1
  · simp
  · split
    · rw [hraised]
    · rfl

theorem view_sendMatch_ne (h : clnt.client ≠ c) :
    (sendMatch setting told bufferArg x clnt).view c = x.view c := by
  have hraised (l : List IvyApplicationEvent) :
      (l.map (clnt.client, ·)).filter (·.1 = c) = [] := by
    simp [List.filter_map, Function.comp_def, h]
  simp only [sendMatch, Wires.view, Wires.linesTo, Wires.eventsOf, List.filter_append,
    List.map_append, Function.update_of_ne (Ne.symm h)]
  congr 1
  · simp [h]
  · split
    · rw [hraised, List.map_nil, List.append_nil]
    · simp

theorem view_sendMatches (l : List IvyClient) (x : Wires) :
    (l.foldl (sendMatch setting told bufferArg) x).view c =
      ((l.filter (·.client = c)).map fun clnt => (header .msg clnt.id, bufferArg)).foldl
        (View.send setting c told) (x.view c) := by
  induction l generalizing x with
  | nil => rfl
  | cons clnt l ih =>
    rw [List.foldl_cons, ih]
    by_cases h : clnt.client = c
    · rw [List.filter_cons_of_pos (by simpa using h), view_sendMatch_self h]
      rfl
    · rw [List.filter_cons_of_neg (by simpa using h), view_sendMatch_ne h]

theorem foldl_counting {α β : Type} (f : α → β → α) (l : List β) (a : α) (n : Nat) :
    l.foldl (fun out b => (f out.1 b, out.2 + 1)) (a, n) = (l.foldl f a, n + l.length) := by
  induction l generalizing a n with
  | nil => rfl
  | cons b l ih => rw [List.foldl_cons, ih, List.length_cons, Nat.add_right_comm]; rfl

theorem regexpCall_eq (x : Wires) (msg : MsgSndDict Code) : regexpCall setting x msg message =
    (ivyBindingExec setting.engine msg.binding message).elim (x, 0) fun groups =>
      (msg.clientList.foldl (sendMatch setting switchState (Ivy.bufferArg message groups)) x,
        msg.clientList.length) := by
  rw [regexpCall]
  cases ivyBindingExec setting.engine msg.binding message with
  | none => rfl
  | some groups =>
    rw [Option.elim_some, ← Nat.zero_add msg.clientList.length]
    exact foldl_counting ..

theorem regexpCallUnique_eq (x : Wires) (msg : MsgSndDict Code) :
    regexpCallUnique setting x msg message c =
      (ivyBindingExec setting.engine msg.binding message).elim (x, 0) fun groups =>
        ((own c msg).foldl (sendMatch setting testState (Ivy.bufferArg message groups)) x,
          (own c msg).length) := by
  rw [regexpCallUnique]
  cases ivyBindingExec setting.engine msg.binding message with
  | none => rfl
  | some groups =>
    have hfold := foldl_counting (sendMatch setting testState (Ivy.bufferArg message groups))
      (own c msg) x 0
    rw [own, List.foldl_filter, Nat.zero_add] at hfold
    simp only [decide_eq_true_eq] at hfold
    rw [Option.elim_some, own, ← hfold]
    refine congrArg (List.foldl · (x, 0) msg.clientList) (funext fun out => funext fun clnt => ?_)
    by_cases h : clnt.client = c
    · rw [if_pos h, if_neg (not_not.mpr h.symm)]
    · rw [if_neg h, if_pos (Ne.symm h)]

theorem observe_dictionary {β γ : Type} (observe : Wires → β) (act : β → List γ → β)
    (hnil : ∀ b, act b [] = b) (happend : ∀ b l l', act (act b l) l' = act b (l ++ l'))
    (call : Wires → MsgSndDict Code → Wires × Nat) (lines : MsgSndDict Code → List γ)
    (hcall : ∀ x msg, observe (call x msg).1 = act (observe x) (lines msg))
    (d : List (MsgSndDict Code)) (out : Wires × Nat) :
    observe (d.foldl (fun out msgSendDict =>
        let call := call out.1 msgSendDict
        (call.1, out.2 + call.2)) out).1 = act (observe out.1) (d.flatMap lines) := by
  induction d generalizing out with
  | nil => exact (hnil _).symm
  | cons msg d ih => rw [List.foldl_cons, ih, List.flatMap_cons, ← happend, ← hcall]

variable (setting c told) in
theorem view_dictionary (call : Wires → MsgSndDict Code → Wires × Nat)
    (lines : MsgSndDict Code → List (Str × Str))
    (hcall : ∀ x msg, (call x msg).1.view c =
      (lines msg).foldl (View.send setting c told) (x.view c))
    (d : List (MsgSndDict Code)) (out : Wires × Nat) :
    (d.foldl (fun out msgSendDict =>
        let call := call out.1 msgSendDict
        (call.1, out.2 + call.2)) out).1.view c =
      (d.flatMap lines).foldl (View.send setting c told) (out.1.view c) :=
  observe_dictionary (Wires.view · c) (fun v lines => lines.foldl (View.send setting c told) v)
    (fun _ => rfl) (fun _ _ _ => List.foldl_append.symm) call lines hcall d out

theorem view_ivySendMsg (h : (s.debugBinaryMsg && ivyCheckBuffer message) = false) :
    (ivySendMsg setting s message x).1.view c =
      (linesFor setting.engine s c message).foldl (View.send setting c switchState) (x.view c) := by
  rw [ivySendMsg, h, if_neg Bool.false_ne_true]
  refine view_dictionary setting c switchState (regexpCall setting · · message) _
    (fun x msg => ?_) _ (x, 0)
  rw [regexpCall_eq, entryLines]
  cases ivyBindingExec setting.engine msg.binding message with
  | none => rfl
  | some groups => exact view_sendMatches ..

theorem view_clientCall : (clientCall setting s c message x).1.view c =
    (linesFor setting.engine s c message).foldl (View.send setting c testState) (x.view c) := by
  refine view_dictionary setting c testState (regexpCallUnique setting · · message c) _
    (fun x msg => ?_) _ (x, 0)
  rw [regexpCallUnique_eq, entryLines]
  cases ivyBindingExec setting.engine msg.binding message with
  | none => rfl
  | some groups =>
    rw [Option.elim_some, view_sendMatches, own, List.filter_filter]
    simp only [Bool.and_self]
    rfl

theorem view_clientCall_ne (h : d ≠ c) :
    (clientCall setting s c message x).1.view d = x.view d := by
  have hview := view_dictionary setting d testState (regexpCallUnique setting · · message c)
    (fun _ => []) (fun x msg => ?_) s.messSndByRegexp (x, 0)
  · have hnil : s.messSndByRegexp.flatMap (fun _ => ([] : List (Str × Str))) = [] :=
      List.flatMap_eq_nil_iff.mpr fun _ _ => rfl
    rw [hnil] at hview
    exact hview
  · rw [regexpCallUnique_eq]
    cases ivyBindingExec setting.engine msg.binding message with
    | none => rfl
    | some groups =>
      have hnone : (own c msg).filter (·.client = d) = [] := by
        rw [own, List.filter_filter, List.filter_eq_nil_iff]
        rintro clnt - hboth
        simp only [Bool.and_eq_true, decide_eq_true_eq] at hboth
        exact h (hboth.1.symm.trans hboth.2)
      rw [Option.elim_some, view_sendMatches, hnone]
      rfl

theorem length_regexpCallUnique (x : Wires) (msg : MsgSndDict Code) :
    (regexpCallUnique setting x msg message c).2 =
      (entryLines setting.engine c message msg).length := by
  rw [regexpCallUnique_eq, entryLines]
  cases ivyBindingExec setting.engine msg.binding message with
  | none => rfl
  | some groups => exact (List.length_map _).symm

theorem length_dictionary (d : List (MsgSndDict Code)) (out : Wires × Nat) :
    (d.foldl (fun out msgSendDict =>
        let call := regexpCallUnique setting out.1 msgSendDict message c
        (call.1, out.2 + call.2)) out).2 =
      out.2 + (d.flatMap (entryLines setting.engine c message)).length := by
  induction d generalizing out with
  | nil => rfl
  | cons msg d ih =>
    rw [List.foldl_cons, ih, List.flatMap_cons, List.length_append, ← Nat.add_assoc,
      ← length_regexpCallUnique out.1]

theorem length_clientCall : (clientCall setting s c message x).2 =
    (linesFor setting.engine s c message).length :=
  (length_dictionary s.messSndByRegexp (x, 0)).trans (Nat.zero_add _)

theorem lines_sends (lines : List (Str × Str)) (v : View) :
    (lines.foldl (View.send setting c told) v).lines =
      v.lines ++ lines.map fun l => l.1 ++ l.2 := by
  induction lines generalizing v with
  | nil => exact (List.append_nil _).symm
  | cons line lines ih =>
    rw [List.foldl_cons, ih, List.map_cons, View.send, List.append_assoc]
    rfl

end View

def events (answers : Nat → SendResult × SendResult)
    (told : SendState → List IvyApplicationEvent) (client : Socket.Client) (n : Nat) :
    List (Str × Str) → List IvyApplicationEvent
  | [] => []
  | (id, arg) :: lines =>
    let out := socketSendRawWithId client id arg (answers n).1 (answers n).2
    told out.2 ++ events answers told out.1 (n + 1) lines

section Events

variable {answers : Nat → SendResult × SendResult} {client : Socket.Client} {id arg : Str}
  {r1 r2 : SendResult}

theorem events_sends {setting : Setting Code} {c : Handle}
    {told : SendState → List IvyApplicationEvent} (lines : List (Str × Str)) (v : View) :
    (lines.foldl (View.send setting c told) v).events = v.events ++ if setting.application then
      events (setting.answers c) told v.client v.lines.length lines else [] := by
  induction lines generalizing v with
  | nil => simp [events]
  | cons line lines ih =>
    rw [List.foldl_cons, ih]
    obtain ⟨id, arg⟩ := line
    simp only [View.send, events, List.length_append, List.length_singleton]
    split
    · rw [List.append_assoc]
    · rw [List.append_assoc, List.append_nil]

/-- `RegexpCallUnique` differs from `RegexpCall` when a line finds the FIFO full. -/
theorem told_cases :
    (Pointers.unfilled client id arg = true ∧
      switchState (socketSendRawWithId client id arg r1 r2).2 =
        testState (socketSendRawWithId client id arg r1 r2).2) ∨
    (Pointers.unfilled client id arg = false ∧
      switchState (socketSendRawWithId client id arg r1 r2).2 = [.fifoFull] ∧
      testState (socketSendRawWithId client id arg r1 r2).2 = []) := by
  cases hifb : client.ifb with
  | none =>
    refine Or.inl ⟨by rw [Pointers.unfilled, hifb]; rfl, ?_⟩
    rcases @Pointers.socketSendRawWithId_none client id arg r1 r2 hifb with
      ⟨-, -, hstate | hstate⟩ | ⟨-, hstate⟩ <;> rw [hstate] <;> rfl
  | some ifb =>
    rw [(Pointers.socketSendRawWithId_some hifb).2, Pointers.unfilled, hifb, Option.all_some]
    cases ivyFifoIsFull (ivyFifoWrite (ivyFifoWrite ifb id) arg) with
    | false => exact Or.inl ⟨rfl, rfl⟩
    | true => exact Or.inr ⟨rfl, rfl, rfl⟩

theorem length_events_le (lines : List (Str × Str)) (client : Socket.Client) (n : Nat) :
    (events answers testState client n lines).length ≤
      (events answers switchState client n lines).length := by
  induction lines generalizing client n with
  | nil => exact Nat.le_refl _
  | cons line lines ih =>
    rw [events, events, List.length_append, List.length_append]
    refine Nat.add_le_add ?_ (ih _ _)
    rcases @told_cases client line.1 line.2 (answers n).1 (answers n).2 with ⟨-, heq⟩ | ⟨-, -, heq⟩
    · rw [heq]
    · rw [heq]
      exact Nat.zero_le _

theorem events_eq_iff (lines : List (Str × Str)) (client : Socket.Client) (n : Nat) :
    events answers testState client n lines = events answers switchState client n lines ↔
      Roomy answers client n lines := by
  induction lines generalizing client n with
  | nil => exact iff_of_true rfl trivial
  | cons line lines ih =>
    rw [events, events, Roomy, ← ih]
    rcases @told_cases client line.1 line.2 (answers n).1 (answers n).2 with
      ⟨hroom, heq⟩ | ⟨hfull, hswitch, htest⟩
    · rw [heq, List.append_cancel_left_eq, hroom]
      simp
    · rw [hswitch, htest, hfull]
      refine iff_of_false (fun heq => ?_) (fun h => Bool.false_ne_true h.1)
      have hle := @length_events_le answers lines
        (socketSendRawWithId client line.1 line.2 (answers n).1 (answers n).2).1 (n + 1)
      have hlength := congrArg List.length heq
      rw [List.nil_append, List.length_append, List.length_singleton] at hlength
      omega

theorem told_eq_iff (application : Bool) (lines : List (Str × Str)) (client : Socket.Client)
    (n : Nat) :
    ((if application then events answers testState client n lines else []) =
      if application then events answers switchState client n lines else []) ↔
      (application = true → Roomy answers client n lines) := by
  split
  · rename_i happ
    rw [events_eq_iff]
    exact ⟨fun h _ => h, fun h => h happ⟩
  · rename_i happ
    exact iff_of_true rfl (fun h => absurd h happ)

end Events

section Sent

variable {setting : Setting Code} {told : SendState → List IvyApplicationEvent} {c : Handle}
  {message bufferArg : Str} {s : Ivy Code}

def Wires.outputs (x : Wires) : List Output := x.sent.map fun p => .send p.1 p.2

theorem outputs_sendMatches (l : List IvyClient) (x : Wires) :
    (l.foldl (sendMatch setting told bufferArg) x).outputs =
      x.outputs ++ l.map (matchLine bufferArg) := by
  induction l generalizing x with
  | nil => exact (List.append_nil _).symm
  | cons clnt l ih =>
    rw [List.foldl_cons, ih, List.map_cons, Wires.outputs, sendMatch, List.map_append,
      List.append_assoc]
    rfl

theorem outputs_dictionary (call : Wires → MsgSndDict Code → Wires × Nat)
    (lines : MsgSndDict Code → List Output)
    (hcall : ∀ x msg, (call x msg).1.outputs = x.outputs ++ lines msg)
    (d : List (MsgSndDict Code)) (out : Wires × Nat) :
    (d.foldl (fun out msgSendDict =>
        let call := call out.1 msgSendDict
        (call.1, out.2 + call.2)) out).1.outputs = out.1.outputs ++ d.flatMap lines :=
  observe_dictionary Wires.outputs (· ++ ·) List.append_nil List.append_assoc call lines hcall d
    out

theorem outputs_ivySendMsg (sock : Handle → Socket.Client)
    (h : (s.debugBinaryMsg && ivyCheckBuffer message) = false) :
    (Ivy.ivySendMsg setting.engine s message).1 =
      s.extend (ivySendMsg setting s message (start sock)).1.outputs := by
  rw [ivySendMsg_eq setting.engine h, ivySendMsg, h, if_neg Bool.false_ne_true, sendLines]
  refine congrArg s.extend (outputs_dictionary (regexpCall setting · · message) _ (fun x msg => ?_)
    _ (start sock, 0)).symm
  rw [regexpCall_eq, callLines]
  cases ivyBindingExec setting.engine msg.binding message with
  | none => exact (List.append_nil _).symm
  | some groups => exact outputs_sendMatches ..

theorem outputs_clientCall (sock : Handle → Socket.Client) :
    (Ivy.clientCall setting.engine s c message).1 =
      s.extend (clientCall setting s c message (start sock)).1.outputs := by
  rw [clientCall_eq]
  refine congrArg s.extend (outputs_dictionary (regexpCallUnique setting · · message c) _
    (fun x msg => ?_) _ (start sock, 0)).symm
  rw [regexpCallUnique_eq, ownLines]
  cases ivyBindingExec setting.engine msg.binding message with
  | none => exact (List.append_nil _).symm
  | some groups => exact outputs_sendMatches ..

end Sent

section Agrees

variable (setting : Setting Code) (s : Ivy Code) (sock : Handle → Socket.Client) (c : Handle)
  (message : Str)

theorem clientCall_spec :
    let unique := clientCall setting s c message (start sock)
    let lines := linesFor setting.engine s c message
    unique.1.linesTo c = lines.map (fun l => l.1 ++ l.2) ∧
      unique.1.eventsOf c = (if setting.application then
        events (setting.answers c) testState (sock c) 0 lines else []) ∧
      (∀ d, d ≠ c → unique.1.linesTo d = []) ∧ unique.2 = (unique.1.linesTo c).length := by
  have hview := @view_clientCall Code setting c message s (start sock)
  have hlines : (clientCall setting s c message (start sock)).1.linesTo c =
      (linesFor setting.engine s c message).map fun l => l.1 ++ l.2 :=
    (congrArg View.lines hview).trans (lines_sends _ _)
  refine ⟨hlines, ?_, fun d hd => ?_, ?_⟩
  · exact (congrArg View.events hview).trans (events_sends _ _)
  · exact congrArg View.lines (@view_clientCall_ne Code setting c d message s (start sock) hd)
  · rw [hlines, length_clientCall, List.length_map]

theorem ivySendMsg_spec :
    let all := ivySendMsg setting s message (start sock)
    let lines := if s.debugBinaryMsg && ivyCheckBuffer message then []
      else linesFor setting.engine s c message
    all.1.linesTo c = lines.map (fun l => l.1 ++ l.2) ∧
      all.1.eventsOf c = if setting.application then
        events (setting.answers c) switchState (sock c) 0 lines else [] := by
  cases hblock : s.debugBinaryMsg && ivyCheckBuffer message with
  | true =>
    rw [ivySendMsg, if_pos hblock, if_pos rfl]
    exact ⟨rfl, by simp [events, start, Wires.eventsOf]⟩
  | false =>
    have hview := @view_ivySendMsg Code setting c message s (start sock) hblock
    rw [if_neg Bool.false_ne_true]
    exact ⟨(congrArg View.lines hview).trans (lines_sends _ _),
      (congrArg View.events hview).trans (events_sends _ _)⟩

variable {setting s sock c message} in
theorem Agrees.roomy (h : Agrees setting s sock c message)
    (hblock : (s.debugBinaryMsg && ivyCheckBuffer message) = false)
    (happ : setting.application = true) :
    Roomy (setting.answers c) (sock c) 0 (linesFor setting.engine s c message) := by
  have heq := h.2.1
  rw [(clientCall_spec setting s sock c message).2.1, (ivySendMsg_spec setting s sock c message).2,
    hblock, if_neg Bool.false_ne_true, told_eq_iff] at heq
  exact heq happ

/-- `ClientCall` does what `IvySendMsg` does when no line goes to the client, and when the text is
not held back and no line finds the FIFO full while there is an `application_callback`. -/
theorem clientCall_agrees_iff :
    Agrees setting s sock c message ↔ linesFor setting.engine s c message = [] ∨
      (s.debugBinaryMsg && ivyCheckBuffer message) = false ∧ (setting.application = true →
        Roomy (setting.answers c) (sock c) 0 (linesFor setting.engine s c message)) := by
  obtain ⟨hlines, hevents, hothers, hcount⟩ := clientCall_spec setting s sock c message
  obtain ⟨hlines', hevents'⟩ := ivySendMsg_spec setting s sock c message
  have hiff : Agrees setting s sock c message ↔
      (clientCall setting s c message (start sock)).1.linesTo c =
        (ivySendMsg setting s message (start sock)).1.linesTo c ∧
      (clientCall setting s c message (start sock)).1.eventsOf c =
        (ivySendMsg setting s message (start sock)).1.eventsOf c :=
    ⟨fun h => ⟨h.1, h.2.1⟩, fun h => ⟨h.1, h.2, hothers, hcount⟩⟩
  rw [hiff, hlines, hlines', hevents, hevents']
  cases hblock : s.debugBinaryMsg && ivyCheckBuffer message with
  | true =>
    rw [if_pos rfl, List.map_nil, List.map_eq_nil_iff]
    constructor
    · exact fun h => Or.inl h.1
    · rintro (hnil | ⟨hfalse, -⟩)
      · refine ⟨hnil, ?_⟩
        rw [hnil]
        rfl
      · cases hfalse
  | false =>
    rw [if_neg Bool.false_ne_true, told_eq_iff]
    constructor
    · rintro ⟨-, hroomy⟩
      exact Or.inr ⟨rfl, hroomy⟩
    · rintro (hnil | ⟨-, hroomy⟩)
      · rw [hnil]
        exact ⟨rfl, fun _ => trivial⟩
      · exact ⟨rfl, hroomy⟩

end Agrees

section Full

def refused : Socket.Client := (socketSendRaw Client.init hugeText .wouldBlock).1

def fullFifo : IvyFifoBuffer := { ivyFifoNew with full := true }

theorem refused_ifb : refused.ifb = some fullFifo := by
  have hlength : hugeText.length = ivyFifoMaxAllocSize := length_hugeText
  have hnot : ¬ takes ivyFifoNew hugeText.length := by
    rw [takes_ivyFifoNew, hlength]
    exact Nat.lt_irrefl _
  have hwrite : ivyFifoWrite ivyFifoNew hugeText = fullFifo := by
    refine wf_ivyFifoNew.write_of_not_takes ?_ hnot (Or.inr ?_)
    · rw [hlength]
      decide
    · rw [hlength, length_ivyFifoNew]
      decide
  rw [refused, socketSendRaw, bufferizedSocketSendRaw_wouldBlock rfl, congest, hwrite]

theorem write_fullFifo {b : Str} (h : b.length < ivyFifoAllocSize) :
    ivyFifoWrite fullFifo b = fullFifo := by
  have hwf : Wf fullFifo := wf_ivyFifoNew.setFull
  have havail : ivyFifoAvail fullFifo = ivyFifoAllocSize := by
    have hlength : ivyFifoLength fullFifo = 0 := length_ivyFifoNew
    have hsize : fullFifo.buffer.length = ivyFifoAllocSize := length_malloc ivyFifoAllocSize
    rw [hwf.avail_eq, hlength, hsize, Nat.sub_zero]
  refine hwf.write_of_not_takes ?_ (fun ht => ?_) (Or.inl rfl)
  · exact h.trans (by decide)
  · have hle := ht.2 rfl
    omega

theorem refused_full {id arg : Str} (hid : id.length < ivyFifoAllocSize)
    (harg : arg.length < ivyFifoAllocSize) : Pointers.unfilled refused id arg = false := by
  rw [Pointers.unfilled, refused_ifb, Option.all_some, write_fullFifo hid, write_fullFifo harg]
  rfl

def subscribed : Ivy Str :=
  { (default : Ivy Str) with
    messSndByRegexp := [⟨ascii "a", [⟨0, 1, [], 0, 0, [], 0, false⟩], some (ascii "a")⟩] }

def unread : Setting Str := ⟨literal, fun _ _ => (.wouldBlock, .wouldBlock), true⟩

/-- The full FIFO is not told when `ClientCall` finds it. -/
theorem clientCall_disagrees : ¬ Agrees unread subscribed (fun _ => refused) 1 (ascii "a") := by
  intro h
  have hroomy := h.roomy rfl rfl
  have hlines : linesFor literal subscribed 1 (ascii "a") =
      [(header .msg 0, Ivy.bufferArg (ascii "a") [])] := by decide
  rw [show unread.engine = literal from rfl, hlines, Roomy,
    refused_full (by decide) (by decide)] at hroomy
  exact Bool.false_ne_true hroomy.1

end Full

end IvyBus.Unique
