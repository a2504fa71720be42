import IvyBus.NetworkLaws

namespace IvyBus.Network

open Lib Ivy

variable {Agent Code : Type} {engine : Engine Code}

def sentTo (c : Handle) : Output → Bool
  | .send client _ => client = c
  | _ => false

def matchFor (engine : Engine Code) (message : Str) (c : Handle) (p : Int32 × Str) :
    Option Output :=
  (ivyBindingExec engine (engine.compile p.2).toOption message).map fun groups =>
    .send c (msgText .msg p.1 (captures message groups))

section Sends

variable {s : Ivy Code} {message : Str} {c : Handle}

def subscriptions (s : Ivy Code) (c : Handle) : List (Int32 × Str) :=
  s.messSndByRegexp.flatMap fun msg => (own c msg).map fun clnt => (clnt.id, msg.regexpSrc)

theorem mem_subscriptions (h : s.Wf) {i : Int32} {r : Str} :
    (i, r) ∈ subscriptions s c ↔ (c, i) ∈ s.listed r := by
  rw [h.mem_listed_iff, subscriptions, List.mem_flatMap]
  apply exists_congr
  intro msg
  apply and_congr_right
  intro _
  simp only [List.mem_map, own, List.mem_filter, decide_eq_true_eq, sub, Prod.mk.injEq]
  constructor
  · rintro ⟨clnt, ⟨hclnt, hc⟩, hi, hr⟩
    exact ⟨hr, clnt, hclnt, hc, hi⟩
  · rintro ⟨hr, clnt, hclnt, hc, hi⟩
    exact ⟨clnt, ⟨hclnt, hc⟩, hi, hr⟩

theorem subscriptions_nodup (h : s.Wf) (hagree : s.tables.Agree) :
    (subscriptions s c).Nodup := by
  rw [subscriptions, List.nodup_flatMap]
  constructor
  · intro msg hmsg
    have hlisted : (msg.clientList.map sub).Nodup := by
      have hnodup := hagree.listed_nodup msg.regexpSrc
      change (s.listed msg.regexpSrc).Nodup at hnodup
      rwa [listed, subscribers_of_find? (find?_cell h.dict.keys hmsg)] at hnodup
    have hown : ((own c msg).map sub).Nodup := hlisted.sublist (List.filter_sublist.map _)
    have hclient : ∀ clnt ∈ own c msg, clnt.client = c := fun clnt hclnt =>
      of_decide_eq_true (List.mem_filter.mp hclnt).2
    refine List.Nodup.map_on (fun x hx y hy heq => ?_) hown.of_map
    refine List.inj_on_of_nodup_map hown hx hy (Prod.ext ?_ (Prod.mk.inj heq).1)
    exact (hclient x hx).trans (hclient y hy).symm
  · refine (List.pairwise_map.mp h.dict.keys).imp fun hne => ?_
    intro p hp hp'
    obtain ⟨_, -, rfl⟩ := List.mem_map.mp hp
    obtain ⟨_, -, heq⟩ := List.mem_map.mp hp'
    exact hne (Prod.mk.inj heq).2.symm

theorem filter_matchLines (groups : List (Nat × Nat)) (l : List IvyClient) :
    (l.map (matchLine (bufferArg message groups))).filter (sentTo c) =
      (l.filter (·.client = c)).map fun clnt =>
        .send c (msgText .msg clnt.id (captures message groups)) := by
  rw [List.filter_map]
  apply List.map_congr_left
  intro clnt hclnt
  rw [matchLine, of_decide_eq_true (List.mem_filter.mp hclnt).2, msgText, List.append_assoc]
  rfl

theorem filter_sendLines (hbound : Bound engine s) :
    (sendLines engine s message).filter (sentTo c) =
      (subscriptions s c).filterMap (matchFor engine message c) := by
  rw [sendLines, subscriptions, List.filter_flatMap, List.filterMap_flatMap]
  apply List.flatMap_congr
  intro msg hmsg
  rw [callLines, List.filterMap_map]
  have hmatch : matchFor engine message c ∘ (fun clnt : IvyClient => (clnt.id, msg.regexpSrc)) =
      fun clnt => (ivyBindingExec engine msg.binding message).map fun groups =>
        .send c (msgText .msg clnt.id (captures message groups)) := by
    rw [hbound msg hmsg]
    rfl
  rw [hmatch]
  cases ivyBindingExec engine msg.binding message with
  | none =>
    rw [Option.elim_none, List.filter_nil]
    exact (List.filterMap_eq_nil_iff.mpr fun _ _ => rfl).symm
  | some groups =>
    rw [Option.elim_some, filter_matchLines, ← List.filterMap_eq_map]
    rfl

theorem mem_sendLines {o : Output} (h : o ∈ sendLines engine s message) :
    ∃ c i args, o = .send c (msgText .msg i args) := by
  obtain ⟨msg, -, hin⟩ := List.mem_flatMap.mp h
  obtain ⟨groups, clnt, -, rfl⟩ := mem_callLines hin
  refine ⟨clnt.client, clnt.id, captures message groups, ?_⟩
  rw [matchLine, msgText, List.append_assoc]
  rfl

end Sends

/-- The agent `b` knows the bindings of the agent `a`, whose connection is `c`. -/
structure Converged (engine : Engine Code) (a b : Ivy Code) (c : Handle) : Prop where
  listed : ∀ i r, (b.listed r).count (c, i) = if (i, r) ∈ bindings a then 1 else 0
  sends : ∀ message, (b.debugBinaryMsg && ivyCheckBuffer message) = false →
    ∃ os, ivySendMsg engine b message = (b.extend os, os.length) ∧
      (∀ o ∈ os, ∃ c i args, o = .send c (msgText .msg i args)) ∧
        (os.filter (sentTo c)).Perm ((bindings a).filterMap (matchFor engine message c))

theorem converged_of_perm {a b : Ivy Code} {c : Handle} (hb : AgentOk engine b)
    (hperm : (b.registered c).Perm (bindings a)) : Converged engine a b c := by
  have hsubs : (subscriptions b c).Perm (bindings a) := by
    refine List.Perm.trans ?_ hperm
    apply (List.perm_ext_iff_of_nodup (subscriptions_nodup hb.wf hb.agree)
      (hb.agree.registered_nodup c)).mpr
    rintro ⟨i, r⟩
    exact (mem_subscriptions hb.wf).trans (hb.agree.mem_iff c i r)
  constructor
  · intro i r
    have hiff : (c, i) ∈ b.listed r ↔ (i, r) ∈ bindings a :=
      (mem_subscriptions hb.wf).symm.trans hsubs.mem_iff
    have hnodup : (b.listed r).Nodup := hb.agree.listed_nodup r
    split
    · rename_i hin
      exact List.count_eq_one_of_mem hnodup (hiff.mpr hin)
    · rename_i hin
      exact List.count_eq_zero.mpr fun hin' => hin (hiff.mp hin')
  · intro message hmode
    refine ⟨sendLines engine b message, ivySendMsg_eq engine hmode, fun o ho => mem_sendLines ho,
      ?_⟩
    rw [filter_sendLines hb.bound]
    exact hsubs.filterMap _

structure Connected (net : Net Agent Code) (c : Handle) (a b : Agent) : Prop where
  joins : Joins net c a b
  node : ((net.state a).findClient c).isSome
  reads : Open (net.state b) c

variable [DecidableEq Agent]

def greetingRun : List (Event Bool) :=
  [.bind false (ascii "a"), .connect false true 1 [] [], .accept 1 [] [], .deliver 1 true,
    .deliver 1 true, .deliver 1 true]

end IvyBus.Network
