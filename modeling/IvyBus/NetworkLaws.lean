import IvyBus.Delivery
import IvyBus.GreetingLaws
import IvyBus.Lib.Run

namespace IvyBus.Network

open Lib Ivy

variable {Agent Code : Type} {engine : Engine Code}

def Waits (net : Net Agent Code) (c : Handle) (y x : Agent) : Prop :=
  net.waiting c = true ∧ net.ends c = some (y, x)

structure Inv (engine : Engine Code) (net : Net Agent Code) : Prop where
  agents : ∀ x, AgentOk engine (net.state x)
  ends_ne : ∀ c x y, net.ends c = some (x, y) → x ≠ y
  nodes : ∀ c x, ((net.state x).findClient c).isSome → ∃ y, Joins net c y x
  channels : ∀ c y x, Joins net c y x →
    Channel engine (net.state y) (net.state x) c (net.flight c x) (Waits net c y x)
  idle : ∀ c x, net.ends c = none → net.flight c x = []
  waiting : ∀ c y x, Waits net c y x →
    (net.state x).findClient c = none ∧ net.flight c y = [] ∧ (net.state y).registered c = []

section Step

variable {net : Net Agent Code} {x y z : Agent} {c : Handle} {s' : Ivy Code}
  {rest : Handle → List Str} {callbacks : List Greeting.Event}

theorem Joins.symm (h : Joins net c x y) : Joins net c y x := Or.symm h

theorem Waits.joins (h : Waits net c y x) : Joins net c y x := Or.inl h.2

theorem Inv.joins_unique (h : Inv engine net) (hy : Joins net c y x) (hz : Joins net c z x) :
    y = z := by
  rcases hy with hy | hy
  · rcases hz with hz | hz
    · exact congrArg Prod.fst (Option.some.inj (hy.symm.trans hz))
    · have heq := Option.some.inj (hy.symm.trans hz)
      exact absurd (Prod.mk.inj heq).1 (h.ends_ne c y x hy)
  · rcases hz with hz | hz
    · have heq := Option.some.inj (hy.symm.trans hz)
      exact absurd (Prod.mk.inj heq).2.symm (h.ends_ne c x y hy)
    · exact congrArg Prod.snd (Option.some.inj (hy.symm.trans hz))

theorem Inv.joins_ne (h : Inv engine net) (hj : Joins net c y x) : y ≠ x := by
  rcases hj with hj | hj
  · exact h.ends_ne c y x hj
  · exact (h.ends_ne c x y hj).symm

theorem Inv.still_waiting (h : Inv engine net) (hw : Waits net c y x) {ms : List Message}
    (hms : Sends engine (net.state x) s' c ms) : s'.findClient c = none ∧
      linesTo c (s'.outputs.drop (net.state x).outputs.length) = [] := by
  obtain ⟨hnode, -, -⟩ := h.waiting c y x hw
  constructor
  · rw [← Option.not_isSome_iff_eq_none]
    intro hc
    have hc' := hms.nodes hc
    rw [hnode] at hc'
    cases hc'
  · rw [hms.lines_eq, hms.silent hnode]
    rfl

theorem Inv.no_node (h : Inv engine net) (hfree : net.ends c = none) (x : Agent) :
    (net.state x).findClient c = none := by
  rw [← Option.not_isSome_iff_eq_none]
  intro hc
  obtain ⟨y, hj | hj⟩ := h.nodes c x hc
  · exact Option.some_ne_none _ (hj.symm.trans hfree)
  · exact Option.some_ne_none _ (hj.symm.trans hfree)

theorem channel_empty {s r : Ivy Code} (hs : s.findClient c = none)
    (hr : r.registered c = []) (waits : Prop) : Channel engine s r c [] waits := by
  refine ⟨[], rfl, ⟨nofun, ?_, ?_⟩, fun hactive => ?_⟩
  · rw [hr]
    exact List.nodup_nil
  · rw [hr]
    exact nofun
  · have hnode := hactive.node
    rw [hs] at hnode
    cases hnode

theorem Inv.opened (h : Inv engine net) (hne : x ≠ y) (hfree : net.ends c = none) :
    Inv engine { net with
      ends := Function.update net.ends c (some (x, y))
      waiting := Function.update net.waiting c true } := by
  let net' : Net Agent Code := { net with
    ends := Function.update net.ends c (some (x, y))
    waiting := Function.update net.waiting c true }
  have hself : net'.ends c = some (x, y) := Function.update_self ..
  have hends : ∀ c', c' ≠ c → net'.ends c' = net.ends c' := fun c' hc => Function.update_of_ne hc ..
  have hwaiting : ∀ c', c' ≠ c → net'.waiting c' = net.waiting c' := fun c' hc =>
    Function.update_of_ne hc ..
  have hnode := h.no_node hfree
  change Inv engine net'
  refine ⟨h.agents, fun c' a b hab => ?_, fun c' a hc' => ?_, fun c' a b hj => ?_,
    fun c' a hc' => ?_, fun c' a b hw => ?_⟩
  · by_cases hc : c' = c
    · rw [hc, hself] at hab
      obtain ⟨rfl, rfl⟩ := Prod.mk.inj (Option.some.inj hab)
      exact hne
    · exact h.ends_ne c' a b (hends c' hc ▸ hab)
  · have hc : c' ≠ c := by
      rintro rfl
      change ((net.state a).findClient c').isSome at hc'
      rw [hnode a] at hc'
      cases hc'
    obtain ⟨b, hj⟩ := h.nodes c' a hc'
    refine ⟨b, ?_⟩
    rw [Joins, hends c' hc]
    exact hj
  · by_cases hc : c' = c
    · rw [hc]
      change Channel engine (net.state a) (net.state b) c (net.flight c b) _
      rw [h.idle c b hfree]
      exact channel_empty (hnode a) (registered_eq_nil (hnode b)) _
    · rw [Joins, hends c' hc] at hj
      refine (h.channels c' a b hj).mono fun hw => ?_
      rwa [Waits, hends c' hc, hwaiting c' hc] at hw
  · have hc : c' ≠ c := by
      rintro rfl
      rw [hself] at hc'
      cases hc'
    exact h.idle c' a (hends c' hc ▸ hc')
  · by_cases hc : c' = c
    · rw [hc]
      exact ⟨hnode b, h.idle c a hfree, registered_eq_nil (hnode a)⟩
    · rw [Waits, hends c' hc, hwaiting c' hc] at hw
      exact h.waiting c' a b hw

theorem Inv.taken (h : Inv engine net) (c : Handle) :
    Inv engine { net with waiting := Function.update net.waiting c false } := by
  have hwaits : ∀ c' a b,
      Waits { net with waiting := Function.update net.waiting c false } c' a b →
        Waits net c' a b := by
    rintro c' a b ⟨hwaiting, hends⟩
    refine ⟨?_, hends⟩
    by_cases hc : c' = c
    · rw [hc] at hwaiting
      have hfalse : Function.update net.waiting c false c = false := Function.update_self ..
      exact absurd (hfalse.symm.trans hwaiting) Bool.false_ne_true
    · exact (Function.update_of_ne hc _ _).symm.trans hwaiting
  exact ⟨h.agents, h.ends_ne, h.nodes, fun c' a b hj => (h.channels c' a b hj).mono (hwaits c' a b),
    h.idle, fun c' a b hw => h.waiting c' a b (hwaits c' a b hw)⟩

variable [DecidableEq Agent]

theorem Inv.put (h : Inv engine net) (hok : AgentOk engine s')
    (hnodes : ∀ c, (s'.findClient c).isSome → ∃ y, Joins net c y x)
    (hin : ∀ c y, Joins net c y x →
      Channel engine (net.state y) s' c (rest c) (Waits net c y x))
    (hout : ∀ c y, Joins net c x y → Channel engine s' (net.state y) c
      (net.flight c y ++ linesTo c (s'.outputs.drop (net.state x).outputs.length))
      (Waits net c x y))
    (hidle : ∀ c, net.ends c = none → rest c = [])
    (hwaits : ∀ c y, Waits net c y x → s'.findClient c = none ∧
      linesTo c (s'.outputs.drop (net.state x).outputs.length) = [])
    (hkeeps : ∀ c y, Waits net c x y → rest c = [] ∧ s'.registered c = []) :
    Inv engine (net.put x s' rest) := by
  have hself : (net.put x s' rest).state x = s' := Function.update_self ..
  have hother : ∀ y, y ≠ x → (net.put x s' rest).state y = net.state y := fun y hne =>
    Function.update_of_ne hne ..
  have hflight : ∀ c, (net.put x s' rest).flight c x = rest c := fun c => if_pos rfl
  have hsent : ∀ c y, y ≠ x → Joins net c x y → (net.put x s' rest).flight c y =
      net.flight c y ++ linesTo c (s'.outputs.drop (net.state x).outputs.length) :=
    fun c y hne hj => (if_neg hne).trans (if_pos hj)
  have hsame : ∀ c y, y ≠ x → ¬ Joins net c x y →
      (net.put x s' rest).flight c y = net.flight c y :=
    fun c y hne hj => (if_neg hne).trans (if_neg hj)
  refine ⟨fun y => ?_, h.ends_ne, fun c y hc => ?_, fun c y z hj => ?_, fun c y hc => ?_,
    fun c y z hw => ?_⟩
  · by_cases hy : y = x
    · rw [hy, hself]
      exact hok
    · rw [hother y hy]
      exact h.agents y
  · by_cases hy : y = x
    · rw [hy, hself] at hc
      exact hy ▸ hnodes c hc
    · rw [hother y hy] at hc
      exact h.nodes c y hc
  · by_cases hz : z = x
    · rw [hz] at hj ⊢
      rw [hself, hflight, hother y (h.joins_ne hj)]
      exact hin c y hj
    · by_cases hy : y = x
      · rw [hy] at hj ⊢
        rw [hself, hother z hz, hsent c z hz hj]
        exact hout c z hj
      · have hnot : ¬ Joins net c x z := fun hx => hy (h.joins_unique hj hx)
        rw [hother y hy, hother z hz, hsame c z hz hnot]
        exact h.channels c y z hj
  · by_cases hy : y = x
    · rw [hy, hflight]
      exact hidle c hc
    · have hnot : ¬ Joins net c x y := by
        rintro (hj | hj)
        · exact Option.some_ne_none _ (hj.symm.trans hc)
        · exact Option.some_ne_none _ (hj.symm.trans hc)
      rw [hsame c y hy hnot]
      exact h.idle c y hc
  · obtain ⟨hnode, hlines, hregs⟩ := h.waiting c y z hw
    by_cases hz : z = x
    · rw [hz] at hw ⊢
      obtain ⟨hnone, hnil⟩ := hwaits c y hw
      have hne := h.joins_ne hw.joins
      rw [hself, hother y hne, hsent c y hne hw.joins.symm, hlines, hnil]
      exact ⟨hnone, rfl, hregs⟩
    · by_cases hy : y = x
      · rw [hy] at hw ⊢
        rw [hself, hother z hz, hflight]
        exact ⟨hnode, hkeeps c z hw⟩
      · have hnot : ¬ Joins net c x y := fun hx => hz (h.joins_unique hw.joins.symm hx)
        rw [hother y hy, hother z hz, hsame c y hy hnot]
        exact ⟨hnode, hlines, hregs⟩

theorem Inv.step (h : Inv engine net) (hok : AgentOk engine s')
    (hsends : ∀ c, ∃ ms, Sends engine (net.state x) s' c ms)
    (hin : ∀ c y, Joins net c y x →
      Channel engine (net.state y) s' c (rest c) (Waits net c y x))
    (hkeeps : ∀ c, net.flight c x = [] →
      rest c = [] ∧ ((net.state x).registered c = [] → s'.registered c = [])) :
    Inv engine (net.put x s' rest) := by
  refine h.put hok (fun c hc => ?_) hin (fun c y hj => ?_) (fun c hc => ?_) (fun c y hw => ?_)
    fun c y hw => ?_
  · obtain ⟨ms, hms⟩ := hsends c
    exact h.nodes c x (hms.nodes hc)
  · obtain ⟨ms, hms⟩ := hsends c
    exact (h.channels c x y hj).sends hms
  · exact (hkeeps c (h.idle c x hc)).1
  · obtain ⟨ms, hms⟩ := hsends c
    exact h.still_waiting hw hms
  · obtain ⟨-, hlines, hregs⟩ := h.waiting c x y hw
    exact ⟨(hkeeps c hlines).1, (hkeeps c hlines).2 hregs⟩

theorem Inv.call (h : Inv engine net) (hl : Local engine (net.state x) s') :
    Inv engine (net.call x s') :=
  h.step hl.ok hl.sends
    (fun c y hj => (h.channels c y x hj).hears (hl.registered_eq c) hl.filter_eq (hl.opens c))
    fun c hc => ⟨hc, fun hregs => (hl.registered_eq c).trans hregs⟩

theorem Inv.greet (h : Inv engine net) (hg : Greets engine (net.state x) s' c)
    (hj : Joins net c y x) (hclear : net.flight c y = []) (hregs : (net.state y).registered c = [])
    (hnew : ∀ y, ¬ Waits net c y x)
    (hback : Channel engine (net.state y) s' c (net.flight c x) (Waits net c y x)) :
    Inv engine (net.call x s') := by
  refine h.put hg.ok (fun c' hc' => ?_) (fun c' y' hj' => ?_) (fun c' y' hj' => ?_) (h.idle · x)
    (fun c' y' hw => ?_) fun c' y' hw => ?_
  · by_cases hc : c' = c
    · exact ⟨y, hc ▸ hj⟩
    · obtain ⟨ms, hms⟩ := hg.sends c' hc
      exact h.nodes c' x (hms.nodes hc')
  · by_cases hc : c' = c
    · rw [hc] at hj' ⊢
      rw [h.joins_unique hj' hj]
      exact hback
    · exact (h.channels c' y' x hj').hears (hg.registered_eq c') hg.filter_eq (hg.opens c' hc)
  · by_cases hc : c' = c
    · rw [hc] at hj' ⊢
      rw [h.joins_unique hj'.symm hj, hclear]
      exact hg.channel _ _ hregs
    · obtain ⟨ms, hms⟩ := hg.sends c' hc
      exact (h.channels c' x y' hj').sends hms
  · have hc : c' ≠ c := fun hc => hnew y' (hc ▸ hw)
    obtain ⟨ms, hms⟩ := hg.sends c' hc
    exact h.still_waiting hw hms
  · obtain ⟨-, hlines, hregs'⟩ := h.waiting c' x y' hw
    exact ⟨hlines, (hg.registered_eq c').trans hregs'⟩

theorem Inv.connect (h : Inv engine net) (x y : Agent) (c : Handle) (appname : Str)
    (hquiet : Greeting.Quiet callbacks) :
    ∃ net', connect engine net x y c appname callbacks = some net' ∧ Inv engine net' := by
  rw [Network.connect]
  split
  · exact ⟨net, rfl, h⟩
  · rename_i hguard
    rw [not_or, not_not] at hguard
    obtain ⟨hne, hfree⟩ := hguard
    have hopened := h.opened hne hfree
    have hends : Function.update net.ends c (some (x, y)) c = some (x, y) :=
      Function.update_self ..
    have hnode := h.no_node hfree
    have hy : (net.state y).registered c = [] := registered_eq_nil (hnode y)
    have hgreets := (h.agents x).greets (hnode x) appname
    have hservice := Greeting.sendService_quiet engine
      (Greeting.wellBound_of_agentOk (h.agents x)) c appname hquiet
    refine ⟨_, congrArg (Option.map _) hservice, hopened.greet hgreets (Or.inr hends)
      (h.idle c y hfree) hy ?_ ?_⟩
    · rintro z ⟨-, hz⟩
      exact hne (Prod.mk.inj (Option.some.inj (hends.symm.trans hz))).2.symm
    · change Channel engine (net.state y) _ c (net.flight c x) _
      rw [h.idle c x hfree]
      exact channel_empty (hnode y) ((hgreets.registered_eq c).trans
        (registered_eq_nil (hnode x))) _

theorem Inv.accept (h : Inv engine net) (c : Handle) (appname : Str)
    (hquiet : Greeting.Quiet callbacks) :
    ∃ net', accept engine net c appname callbacks = some net' ∧ Inv engine net' := by
  rw [Network.accept]
  split
  · rename_i y x hends hwaiting
    have hw : Waits net c y x := ⟨hwaiting, hends⟩
    obtain ⟨hnode, hlines, hregs⟩ := h.waiting c y x hw
    have hcreate := Greeting.clientCreate_quiet engine
      (Greeting.wellBound_of_agentOk (h.agents x)) c appname hquiet
    refine ⟨_, congrArg (Option.map _) hcreate, ?_⟩
    rw [clientCreate]
    split
    · exact (h.taken c).call ((h.agents x).refuses c)
    · have hgreets := (h.agents x).greets hnode appname
      refine (h.taken c).greet hgreets hw.joins hlines hregs ?_ ?_
      · rintro z ⟨hz, -⟩
        have hfalse : Function.update net.waiting c false c = false := Function.update_self ..
        exact absurd (hfalse.symm.trans hz) Bool.false_ne_true
      · exact (h.channels c y x hw.joins).receiver (hgreets.registered_eq c) fun hactive =>
          ⟨hactive.node, hgreets.filter_eq ▸ hactive.unfiltered, Or.inl hw⟩
  · exact ⟨net, rfl, h⟩

theorem Inv.deliver (h : Inv engine net) (c : Handle) (x : Agent) :
    ∃ net', deliver engine net c x = some net' ∧ Inv engine net' := by
  rw [Network.deliver]
  split
  · rename_i line rest clnt hlines hfind
    have hnode : ((net.state x).findClient c).isSome := Option.isSome_of_eq_some hfind
    obtain ⟨y, hj⟩ := h.nodes c x hnode
    have hchannel := h.channels c y x hj
    rw [hlines] at hchannel
    obtain ⟨m, rfl, hm, hnew, hrest⟩ := hchannel.next
    obtain ⟨s', hs', hheard⟩ := (h.agents x).hears hnode hm hnew
    have hnot : ¬ Waits net c y x := by
      intro hw
      rw [(h.waiting c y x hw).1] at hnode
      cases hnode
    refine ⟨_, by rw [hs']; rfl, h.step hheard.ok hheard.sends (fun c' z hz => ?_) fun c' hc' => ?_⟩
    · by_cases hc : c' = c
      · rw [hc] at hz ⊢
        rw [Function.update_self, h.joins_unique hz hj]
        exact hrest s' hnot hheard.reads
      · rw [Function.update_of_ne hc]
        exact (h.channels c' z x hz).hears (hheard.others c' hc) hheard.reads.filter_eq
          (hheard.opens c')
    · have hc : c' ≠ c := by
        rintro rfl
        rw [hlines] at hc'
        cases hc'
      rw [Function.update_of_ne hc]
      exact ⟨hc', fun hregs => (hheard.others c' hc).trans hregs⟩
  · exact ⟨net, rfl, h⟩

theorem Inv.drop (h : Inv engine net) (c : Handle) (x : Agent) :
    ∃ net', drop net c x = some net' ∧ Inv engine net' := by
  have hids : (((net.state x).registered c).map Prod.fst).Nodup := by
    cases hfind : (net.state x).findClient c with
    | none =>
      rw [registered_eq_nil hfind]
      exact List.nodup_nil
    | some clnt =>
      obtain ⟨y, hj⟩ := h.nodes c x (Option.isSome_of_eq_some hfind)
      obtain ⟨ms, -, hflow, -⟩ := h.channels c y x hj
      exact hflow.nodup.sublist (List.sublist_append_left ..)
  obtain ⟨s', hs', hd⟩ := (h.agents x).drops hids
  refine ⟨_, by rw [Network.drop, hs']; rfl, h.step hd.ok hd.sends (fun c' y hj => ?_)
    fun c' hc' => ⟨hc', fun hregs => ?_⟩⟩
  · by_cases hc : c' = c
    · rw [hc] at hj ⊢
      by_cases hw : Waits net c y x
      · have hregs : (net.state x).registered c = [] := registered_eq_nil (h.waiting c y x hw).1
        exact (h.channels c y x hj).hears (hd.registered_nil.trans hregs.symm) hd.filter_eq
          (hd.opens c)
      · exact (h.channels c y x hj).lose hd.registered_nil (not_or.mpr ⟨hw, hd.closed⟩)
    · exact (h.channels c' y x hj).hears (hd.others c' hc) hd.filter_eq (hd.opens c')
  · by_cases hc : c' = c
    · rw [hc]
      exact hd.registered_nil
    · exact (hd.others c' hc).trans hregs

/-- What the application may call: it binds regexps of one line that compile, as long as there
are ids, and unbinds what it has bound; neither in a callback of `SendService`. -/
def Allowed (engine : Engine Code) (net : Net Agent Code) : Event Agent → Prop
  | .bind x r => Announceable engine r ∧ (net.state x).recvId ≠ Int32.maxValue
  | .unbind x addr => addr ∈ (net.state x).msgRecv.map MsgRcv.addr
  | .connect _ _ _ _ callbacks => Greeting.Quiet callbacks
  | .accept _ _ callbacks => Greeting.Quiet callbacks
  | _ => True

theorem Inv.next (h : Inv engine net) {e : Event Agent} (he : Allowed engine net e) :
    ∃ net', next engine net e = some net' ∧ Inv engine net' := by
  cases e with
  | bind x r =>
    obtain ⟨s', hs', hl⟩ := (h.agents x).bind he.1 he.2
    exact ⟨_, by rw [Network.next, hs']; rfl, h.call hl⟩
  | unbind x addr =>
    obtain ⟨s', hs', hl⟩ := (h.agents x).unbind he
    exact ⟨_, by rw [Network.next, hs']; rfl, h.call hl⟩
  | connect x y c appname callbacks => exact h.connect x y c appname he
  | accept c appname callbacks => exact h.accept c appname he
  | deliver c x => exact h.deliver c x
  | drop c x => exact h.drop c x

end Step

structure Start (s : Ivy Code) : Prop where
  clients : s.allClients = []
  dict : s.messSndByRegexp = []
  bindings : s.msgRecv = []
  name : lf ∉ s.applicationName ∧ 0 ∉ s.applicationName
  ready : ∀ message, s.readyMessage = some message → lf ∉ message ∧ 0 ∉ message

theorem agentOk_of_start {s : Ivy Code} (h : Start s) : AgentOk engine s := by
  obtain ⟨hclients, hdict, hrecv, hname, hready⟩ := h
  have hlisted : s.listed = fun _ => [] := by
    funext r
    rw [listed, subscribers, hdict]
    rfl
  have hregistered : s.registered = fun _ => [] := by
    funext c
    apply registered_eq_nil
    rw [findClient, hclients]
    rfl
  have hempty : s.tables = Tables.empty := by
    rw [tables, hlisted, hregistered]
    rfl
  refine ⟨⟨?_, ?_⟩, hempty ▸ Tables.Agree.empty, ?_, hname, hready, ?_, ?_, ?_, ?_⟩
  · rw [hdict]
    exact ⟨List.nodup_nil, List.forall_mem_nil _⟩
  · rw [hclients]
    exact ⟨List.nodup_nil, List.forall_mem_nil _⟩
  · rw [Bound, hdict]
    exact List.forall_mem_nil _
  · rw [hrecv]
    exact ⟨List.nodup_nil, List.forall_mem_nil _⟩
  · rw [Network.bindings, hrecv]
    exact List.nodup_nil
  · rw [Network.bindings, hrecv]
    exact List.forall_mem_nil _
  · rw [hrecv]
    exact List.forall_mem_nil _

theorem inv_init {start : Agent → Ivy Code} (h : ∀ x, Start (start x)) :
    Inv engine (Net.init start) := by
  refine ⟨fun x => agentOk_of_start (h x), nofun, fun c x hc => ?_, fun c y x hj => ?_,
    fun _ _ _ => rfl, fun c y x hw => ?_⟩
  · have hnone : (start x).findClient c = none := by
      rw [findClient, (h x).clients]
      rfl
    change ((start x).findClient c).isSome at hc
    rw [hnone] at hc
    cases hc
  · rcases hj with hj | hj
    · cases hj
    · cases hj
  · cases hw.1

end IvyBus.Network
