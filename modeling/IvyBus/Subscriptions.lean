import IvyBus.Lib.Run
import IvyBus.ReceiveLaws

namespace IvyBus.Subscriptions

open Lib Ivy

variable {Code : Type}

inductive Event
  | connect (client : Handle) (appname : Str)
  | addRegexp (client : Handle) (id : Int32) (regexp : Str)
  | delRegexp (client : Handle) (id : Int32)
  | disconnect (client : Handle)

def line (engine : Engine Code) (s : Ivy Code) (c : Handle) (bytes : Str) : Option (Ivy Code) :=
  if (s.findClient c).isSome then receive engine s c bytes else some s

def next (engine : Engine Code) (s : Ivy Code) : Event → Option (Ivy Code)
  | .connect c appname =>
    if (s.findClient c).isSome then some s else some (sendService engine s c appname)
  | .addRegexp c i r => line engine s c (header .addRegexp i ++ r)
  | .delRegexp c i => line engine s c (header .delRegexp i)
  | .disconnect c => s.delOneClient c

def unconnected (s : Ivy Code) : Ivy Code := { s with allClients := [], messSndByRegexp := [] }

def ids (s : Ivy Code) (c : Handle) : List Int32 := (s.srcRegs c).map GlobReg.id

structure Reached (engine : Engine Code) (s₀ s : Ivy Code) : Prop where
  wf : s.Wf
  frame_eq : s.frame = s₀.frame
  listening : ∀ clnt ∈ s.allClients.map bare, clnt.ignoreSubsequentMsg = false
  filtered : ∀ c i r, (i, r) ∈ s.tables.registered c → ivyBindingFilter engine s₀.filter r
  fits : Fitting engine s.tables

def after (engine : Engine Code) (s : Ivy Code) : Event → Tables
  | .connect _ _ => s.tables
  | .addRegexp c i r =>
    if (s.findClient c).isSome ∧ ivyBindingFilter engine s.filter r then
      s.tables.addOrChange c i r
    else s.tables
  | .delRegexp c i => if (s.findClient c).isSome then s.tables.del c i i else s.tables
  | .disconnect c => s.tables.disconnect c

def Event.Safe (engine : Engine Code) (s : Ivy Code) : Event → Prop
  | .addRegexp c _ r =>
    (s.findClient c).isSome → ivyBindingFilter engine s.filter r → errorFits engine r
  | .disconnect c => SafeIds (ids s c)
  | _ => True

section Reached

variable {engine : Engine Code} {s₀ s s' : Ivy Code} {c : Handle} {i : Int32} {r : Str}

theorem Reached.filter_eq (h : Reached engine s₀ s) : s.filter = s₀.filter :=
  (congrArg Ivy.filter h.frame_eq : s.frame.filter = s₀.frame.filter)

theorem Reached.open (h : Reached engine s₀ s) {clnt : IvyClient}
    (hfind : s.findClient c = some clnt) : clnt.ignoreSubsequentMsg = false :=
  h.listening (bare clnt) (List.mem_map_of_mem (List.mem_of_find?_eq_some hfind))

theorem Reached.updated (h : Reached engine s₀ s) {t : Tables} (hupd : Updated s s' t)
    (hfiltered : ∀ c i r, (i, r) ∈ t.registered c → ivyBindingFilter engine s₀.filter r)
    (hfits : Fitting engine t) : Reached engine s₀ s' :=
  ⟨hupd.wf, hupd.frame_eq.trans h.frame_eq, hupd.clients_eq ▸ h.listening,
    hupd.tables_eq ▸ hfiltered, hupd.tables_eq ▸ hfits⟩

theorem Reached.connect (h : Reached engine s₀ s) (hnew : s.findClient c = none)
    (appname : Str) : Reached engine s₀ (sendService engine s c appname) ∧
      (sendService engine s c appname).tables = s.tables := by
  obtain ⟨hwf, hframe, htables⟩ := h.wf.sendService engine hnew appname
  refine ⟨⟨hwf, hframe.trans h.frame_eq, ?_, htables ▸ h.filtered, htables ▸ h.fits⟩, htables⟩
  rw [sendService_eq engine hnew]
  intro clnt hclnt
  rcases List.mem_cons.mp hclnt with rfl | hclnt
  · rfl
  · exact h.listening clnt hclnt

theorem Reached.addRegexp_isSome_iff (h : Reached engine s₀ s) (c : Handle) (i : Int32)
    (r : Str) : (line engine s c (header .addRegexp i ++ r)).isSome ↔
      Event.Safe engine s (.addRegexp c i r) := by
  simp only [line, Event.Safe]
  cases hfind : s.findClient c with
  | none => exact iff_of_true rfl nofun
  | some clnt =>
    simp only [Option.isSome_some, if_true, forall_true_left]
    exact h.wf.receive_addRegexp_isSome_iff h.fits hfind (h.open hfind)

theorem Reached.addRegexp (h : Reached engine s₀ s)
    (hs' : line engine s c (header .addRegexp i ++ r) = some s') :
    Reached engine s₀ s' ∧ s'.tables = after engine s (.addRegexp c i r) := by
  have hsafe := (h.addRegexp_isSome_iff c i r).mp (Option.isSome_of_eq_some hs')
  simp only [line] at hs'
  simp only [after]
  cases hfind : s.findClient c with
  | none =>
    rw [hfind] at hs'
    exact Option.some.inj hs' ▸ ⟨h, rfl⟩
  | some clnt =>
    simp only [hfind, Option.isSome_some, if_true] at hs'
    have hupd := h.wf.receive_addRegexp hfind (h.open hfind) hs'
    refine ⟨h.updated hupd (fun c' i' r' hmem => ?_) ?_, by simpa using hupd.tables_eq⟩
    · split at hmem
      · rename_i hpass
        rcases Tables.mem_registered_addOrChange hmem with rfl | hmem
        · exact h.filter_eq ▸ hpass
        · exact h.filtered c' i' r' hmem
      · exact h.filtered c' i' r' hmem
    · split
      · rename_i hpass
        exact h.fits.addOrChange (hsafe (Option.isSome_of_eq_some hfind) hpass) c i
      · exact h.fits

theorem Reached.delRegexp (h : Reached engine s₀ s) (c : Handle) (i : Int32) :
    ∃ s', line engine s c (header .delRegexp i) = some s' ∧ Reached engine s₀ s' ∧
      s'.tables = after engine s (.delRegexp c i) := by
  simp only [line, after]
  cases hfind : s.findClient c with
  | none => exact ⟨s, rfl, h, rfl⟩
  | some clnt =>
    obtain ⟨s', hs', hupd⟩ := h.wf.receive_delRegexp engine hfind (h.open hfind) i []
    rw [List.append_nil] at hs'
    refine ⟨s', hs', h.updated hupd (fun c' i' r' hmem => ?_) (h.fits.del c i), hupd.tables_eq⟩
    exact h.filtered c' i' r' (Tables.mem_registered_del hmem)

theorem Reached.disconnect (h : Reached engine s₀ s) (hd : Disconnected s s' c) :
    Reached engine s₀ s' := by
  refine ⟨hd.wf, hd.frame_eq.trans h.frame_eq, fun clnt hclnt => ?_, fun c' i' r' hmem => ?_,
    hd.tables_eq ▸ h.fits.disconnect c⟩
  · rw [hd.clients_eq] at hclnt
    exact h.listening clnt (List.mem_filter.mp hclnt).1
  · rw [hd.tables_eq] at hmem
    by_cases hc : c' = c
    · rw [hc, Tables.registered_disconnect_self] at hmem
      cases hmem
    · rw [Tables.registered_disconnect_of_ne hc] at hmem
      exact h.filtered c' i' r' hmem

theorem Reached.next (h : Reached engine s₀ s) (e : Event) :
    (e.Safe engine s → ∃ s', next engine s e = some s' ∧ Reached engine s₀ s' ∧
      s'.tables = after engine s e) ∧ (¬ e.Safe engine s → next engine s e = none) := by
  cases e with
  | connect c appname =>
    refine ⟨fun _ => ?_, fun hfail => absurd trivial hfail⟩
    cases hfind : s.findClient c with
    | none =>
      exact ⟨_, by simp [Subscriptions.next, hfind], h.connect hfind appname⟩
    | some clnt => exact ⟨s, by simp [Subscriptions.next, hfind], h, rfl⟩
  | addRegexp c i r =>
    rw [← h.addRegexp_isSome_iff]
    refine ⟨fun hsome => ?_, Option.not_isSome_iff_eq_none.mp⟩
    obtain ⟨s', hs'⟩ := Option.isSome_iff_exists.mp hsome
    exact ⟨s', hs', h.addRegexp hs'⟩
  | delRegexp c i => exact ⟨fun _ => h.delRegexp c i, fun hfail => absurd trivial hfail⟩
  | disconnect c =>
    obtain ⟨hsafe, hfail⟩ := h.wf.delOneClient c
    refine ⟨fun hids => ?_, hfail⟩
    obtain ⟨s', hs', hd⟩ := hsafe hids
    exact ⟨s', hs', h.disconnect hd, hd.tables_eq⟩

theorem reached_unconnected (engine : Engine Code) (s : Ivy Code) :
    Reached engine s (unconnected s) :=
  ⟨⟨⟨List.nodup_nil, nofun⟩, ⟨List.nodup_nil, nofun⟩⟩, rfl, nofun, nofun, nofun⟩

theorem Reached.of_next (h : Reached engine s₀ s) {e : Event}
    (hs' : Subscriptions.next engine s e = some s') : Reached engine s₀ s' := by
  obtain ⟨hsafe, hfail⟩ := h.next e
  by_cases he : e.Safe engine s
  · obtain ⟨t, ht, hreached, -⟩ := hsafe he
    exact Option.some.inj (ht.symm.trans hs') ▸ hreached
  · rw [hfail he] at hs'
    cases hs'

theorem reached_run (engine : Engine Code) (s₀ : Ivy Code) {es : List Event}
    (hrun : run (Subscriptions.next engine) (unconnected s₀) es = some s) :
    Reached engine s₀ s :=
  run_invariant (Q := fun _ _ => True) (fun _ _ _ hs _ => hs.of_next)
    (reached_unconnected engine s₀) (along_of_forall (fun _ _ => trivial) _ _) hrun

end Reached

def Agrees (engine : Engine Code) (s : Ivy Code) (e : Event) : Prop :=
  ∃ s', next engine s e = some s' ∧ s'.tables.Agree ∧
    ∀ c i, e = .delRegexp c i → ∀ r, (c, i) ∉ s'.listed r

/-- An `AddRegexp` that the filter lets through keeps the tables in agreement, and its error would
fit in `errorbuffer`; a client that disconnects has safe ids. -/
def Sound (engine : Engine Code) (s : Ivy Code) : Event → Prop
  | .addRegexp c i r => ivyBindingFilter engine s.filter r →
    s.tables.Keeps c i r ∧ ((s.findClient c).isSome → errorFits engine r)
  | .disconnect c => SafeIds (ids s c)
  | _ => True

section Agree

variable {engine : Engine Code} {s₀ s s' : Ivy Code}

theorem agree_after_iff (h : s.tables.Agree) {e : Event} (he : e.Safe engine s) :
    (after engine s e).Agree ↔ Sound engine s e := by
  cases e with
  | connect c appname => exact iff_of_true h trivial
  | addRegexp c i r =>
    simp only [after, Sound]
    by_cases hpass : ivyBindingFilter engine s.filter r
    · cases hfind : s.findClient c with
      | none =>
        have hnil : s.tables.registered c = [] := registered_eq_nil hfind
        have hnot : (c, i) ∉ s.tables.listed r := by
          rw [h.mem_iff, hnil]
          exact List.not_mem_nil
        have hkeeps : s.tables.Keeps c i r := by
          rw [Tables.Keeps, if_neg fun hf => hnot hf.mem]
          exact hnot
        simpa [hpass, hkeeps] using h
      | some clnt =>
        have hfits : errorFits engine r = true := he (Option.isSome_of_eq_some hfind) hpass
        simpa [hpass, hfits] using h.addOrChange_iff
    · simpa [hpass] using h
  | delRegexp c i =>
    refine iff_of_true ?_ trivial
    simp only [after]
    split
    · exact h.del c i
    · exact h
  | disconnect c => exact iff_of_true (h.disconnect c) he

theorem not_listed_after_del (h : s.tables.Agree) (c : Handle) (i : Int32) (r : Str) :
    (c, i) ∉ (after engine s (.delRegexp c i)).listed r := by
  have hagree : (after engine s (.delRegexp c i)).Agree :=
    (agree_after_iff h (e := .delRegexp c i) trivial).mpr trivial
  rw [hagree.mem_iff]
  simp only [after]
  cases hfind : s.findClient c with
  | none =>
    have hnil : s.tables.registered c = [] := registered_eq_nil hfind
    simp only [Option.isSome_none, Bool.false_eq_true, if_false, hnil]
    exact List.not_mem_nil
  | some clnt =>
    simp only [Option.isSome_some, if_true, Tables.del, Tables.registered_register_self]
    intro hmem
    exact of_decide_eq_true (List.mem_filter.mp hmem).2 rfl

theorem agrees_iff (h : Reached engine s₀ s) (hagree : s.tables.Agree) (e : Event) :
    Agrees engine s e ↔ Sound engine s e := by
  obtain ⟨hsafe, hfail⟩ := h.next e
  by_cases he : e.Safe engine s
  · obtain ⟨s', hs', -, htables⟩ := hsafe he
    rw [← agree_after_iff hagree he, ← htables]
    constructor
    · rintro ⟨t, ht, hagree', -⟩
      rwa [Option.some.inj (hs'.symm.trans ht)]
    · intro hagree'
      refine ⟨s', hs', hagree', ?_⟩
      rintro c i rfl r
      change _ ∉ s'.tables.listed r
      rw [htables]
      exact not_listed_after_del hagree c i r
  · refine iff_of_false ?_ ?_
    · rintro ⟨s', hs', -⟩
      rw [hfail he] at hs'
      cases hs'
    · cases e with
      | disconnect c => exact he
      | connect c appname => exact absurd trivial he
      | addRegexp c i r => exact fun hsound => he fun hnode hpass => (hsound hpass).2 hnode
      | delRegexp c i => exact absurd trivial he

/-- The two tables agree in every state of a run exactly when its events are sound. -/
theorem tables_agree_iff (engine : Engine Code) (s₀ : Ivy Code) (es : List Event) :
    (unconnected s₀).tables.Agree ∧
        Along (next engine) (Agrees engine) (unconnected s₀) es ↔
      Along (next engine) (Sound engine) (unconnected s₀) es := by
  have hagree : (unconnected s₀).tables.Agree := Tables.Agree.empty
  rw [and_iff_right hagree]
  refine along_iff (I := fun s => Reached engine s₀ s ∧ s.tables.Agree)
    (fun s e hs => agrees_iff hs.1 hs.2 e) (fun s e s' hs hsound hs' => ?_)
    ⟨reached_unconnected engine s₀, hagree⟩ es
  obtain ⟨t, ht, hagree', -⟩ := (agrees_iff hs.1 hs.2 e).mpr hsound
  exact ⟨hs.1.of_next hs', Option.some.inj (ht.symm.trans hs') ▸ hagree'⟩

end Agree

theorem announced_again_disagrees : ∃ s,
    run (next literal) (unconnected default)
      [.connect 1 [], .addRegexp 1 1 (ascii "a"), .addRegexp 1 1 (ascii "b"),
        .addRegexp 1 1 (ascii "b")] = some s ∧ ¬ s.tables.Agree := by
  refine ⟨_, rfl, fun h => ?_⟩
  have hmem := (h.mem_iff 1 1 (ascii "a")).mp (by decide)
  revert hmem
  decide

section Replace

variable {engine : Engine Code} {s₀ s : Ivy Code} {c : Handle} {i : Int32} {r : Str}

theorem Reached.replaces_iff (h : Reached engine s₀ s) {r₀ : Str}
    (hreg : (i, r₀) ∈ s.registered c) :
    (∃ s', receive engine s c (header .addRegexp i ++ r) = some s' ∧
      s.tables.Replaced s'.tables c i r) ↔
      ivyBindingFilter engine s.filter r ∧ s.tables.Reannounced c i r := by
  obtain ⟨clnt, hfind⟩ : ∃ clnt, s.findClient c = some clnt := by
    cases hfind : s.findClient c with
    | none =>
      have hnil : s.registered c = [] := registered_eq_nil hfind
      rw [hnil] at hreg
      cases hreg
    | some clnt => exact ⟨clnt, rfl⟩
  have hdefined := h.wf.receive_addRegexp_isSome_iff (r := r) (i := i) h.fits hfind (h.open hfind)
  cases hs' : receive engine s c (header .addRegexp i ++ r) with
  | none =>
    rw [hs'] at hdefined
    refine iff_of_false (by simp) fun hboth => ?_
    -- A regexp that is listed has an error that fits.
    have hfits : errorFits engine r = true := h.fits r (c, i) hboth.2.1.mem
    cases hdefined.mpr fun _ => hfits
  | some s' =>
    have hupd := h.wf.receive_addRegexp hfind (h.open hfind) hs'
    simp only [Option.some.injEq, exists_eq_left', hupd.tables_eq]
    split
    · rename_i hpass
      rw [and_iff_right hpass]
      exact Tables.replaced_addOrChange_iff ⟨r₀, hreg⟩
    · rename_i hpass
      refine iff_of_false (fun hrep => hpass ?_) fun hboth => hpass hboth.1
      rw [h.filter_eq]
      exact h.filtered c i r hrep.mem_registered

/-- An `AddRegexp` with an id that is registered already replaces the binding exactly when there
is nothing to replace: it announces the only regexp of the id once more. -/
theorem addRegexp_replaces_iff (engine : Engine Code) (s₀ : Ivy Code) (es : List Event)
    {s : Ivy Code} (hrun : run (next engine) (unconnected s₀) es = some s) (c : Handle)
    (i : Int32) (r : Str) (hreg : ∃ r₀, (i, r₀) ∈ s.registered c) :
    (∃ s', receive engine s c (header .addRegexp i ++ r) = some s' ∧
      s.tables.Replaced s'.tables c i r) ↔
      ivyBindingFilter engine s.filter r ∧ s.tables.Reannounced c i r := by
  obtain ⟨r₀, hreg⟩ := hreg
  exact (reached_run engine s₀ hrun).replaces_iff hreg

def sharedRun : List Event :=
  [.connect 1 [], .connect 2 [], .addRegexp 1 1 (ascii "a"), .addRegexp 1 2 (ascii "b"),
    .addRegexp 2 1 (ascii "a"), .addRegexp 2 7 (ascii "c")]

theorem addRegexp_replaces_same : ∃ s,
    run (next literal) (unconnected default) sharedRun = some s ∧
      ∃ s', receive literal s 1 (header .addRegexp 1 ++ ascii "a") = some s' ∧
        s.tables.Replaced s'.tables 1 1 (ascii "a") := by
  have hsome : (run (next literal) (unconnected default) sharedRun).isSome := by decide +kernel
  obtain ⟨s, hrun⟩ := Option.isSome_iff_exists.mp hsome
  have hview : ∀ {α : Type} (f : Ivy Str → α) (x : α),
      (run (next literal) (unconnected default) sharedRun).map f = some x → f s = x := by
    intro α f x hx
    rw [hrun] at hx
    exact Option.some.inj hx
  have hregs := hview (fun s => s.registered 1) [(2, ascii "b"), (1, ascii "a")]
    (by decide +kernel)
  have hfirst := hview (fun s => (s.listed (ascii "a")).find? (·.1 = 1)) (some (1, 1))
    (by decide +kernel)
  have hdict := hview (fun s => s.messSndByRegexp.all fun msg =>
    msg.regexpSrc = ascii "a" ∨ (1, 1) ∉ msg.clientList.map sub) true (by decide +kernel)
  have hmem : (1, ascii "a") ∈ s.registered 1 := hregs ▸ List.mem_of_mem_tail List.mem_cons_self
  refine ⟨s, hrun, (addRegexp_replaces_iff literal default sharedRun hrun 1 1 (ascii "a")
    ⟨ascii "a", hmem⟩).mpr ⟨rfl, hfirst, congrArg _ (congrArg _ hregs), fun r hr hin => ?_⟩⟩
  obtain ⟨msg, hmsg, rfl, hsub⟩ :=
    (reached_run literal default hrun).wf.mem_listed_iff.mp hin
  exact (of_decide_eq_true (List.all_eq_true.mp hdict msg hmsg)).elim hr fun hnot => hnot hsub

theorem addRegexp_keeps_old : ∃ s,
    run (next literal) (unconnected default) [.connect 1 [], .addRegexp 1 1 (ascii "a")] = some s ∧
      (1, ascii "a") ∈ s.registered 1 ∧
      ¬ ∃ s', receive literal s 1 (header .addRegexp 1 ++ ascii "b") = some s' ∧
        s.tables.Replaced s'.tables 1 1 (ascii "b") := by
  refine ⟨_, rfl, by decide, ?_⟩
  rintro ⟨s', hs', hrep⟩
  obtain rfl := Option.some.inj hs'
  have hold := (hrep.listed_iff (ascii "a")).mp (by decide)
  revert hold
  decide

end Replace

section Disconnect

/-- Nothing is left of the client `c`, and all is left of the others. -/
structure Gone (s s' : Ivy Code) (c : Handle) : Prop where
  no_node : ∀ clnt ∈ s'.allClients, clnt.client ≠ c
  no_subscriber : ∀ e ∈ s'.messSndByRegexp,
    e.clientList ≠ [] ∧ ∀ clnt ∈ e.clientList, clnt.client ≠ c
  others_listed : ∀ r, s'.listed r = (s.listed r).filter (·.1 ≠ c)
  others_registered : ∀ c', c' ≠ c → s'.registered c' = s.registered c'

variable {s s' : Ivy Code} {c : Handle}

theorem gone_of_disconnected (h : Disconnected s s' c) : Gone s s' c := by
  have hlisted : ∀ r, s'.listed r = (s.listed r).filter (·.1 ≠ c) := fun r =>
    congrFun (congrArg Tables.listed h.tables_eq) r
  constructor
  · intro clnt hclnt
    have hmem := List.mem_map_of_mem (f := bare) hclnt
    rw [h.clients_eq] at hmem
    exact of_decide_eq_true (List.mem_filter.mp hmem).2
  · intro e he
    refine ⟨(h.wf.dict.entries e he).ne_nil, fun clnt hclnt => ?_⟩
    have hfind := find?_cell h.wf.dict.keys he
    have hmem : sub clnt ∈ s'.listed e.regexpSrc := by
      rw [listed, subscribers_of_find? hfind]
      exact List.mem_map_of_mem hclnt
    rw [hlisted] at hmem
    exact of_decide_eq_true (List.mem_filter.mp hmem).2
  · exact hlisted
  · intro c' hne
    exact (congrFun (congrArg Tables.registered h.tables_eq) c').trans
      (Tables.registered_disconnect_of_ne hne)

/-- In every state of a run a client is removed with all its subscriptions, without a read of
freed nodes, exactly when its ids are safe. -/
theorem delOneClient_gone_iff (engine : Engine Code) (s₀ : Ivy Code) (es : List Event)
    {s : Ivy Code} (hrun : run (next engine) (unconnected s₀) es = some s) (c : Handle) :
    (∃ s', s.delOneClient c = some s' ∧ Gone s s' c) ↔ SafeIds (ids s c) := by
  obtain ⟨hsafe, hfail⟩ := (reached_run engine s₀ hrun).wf.delOneClient c
  constructor
  · rintro ⟨s', hs', -⟩
    by_contra hids
    rw [hfail hids] at hs'
    cases hs'
  · intro hids
    obtain ⟨s', hs', hd⟩ := hsafe hids
    exact ⟨s', hs', gone_of_disconnected hd⟩

theorem delOneClient_gone_shared : ∃ s,
    run (next literal) (unconnected default) sharedRun = some s ∧
      ∃ s', s.delOneClient 1 = some s' ∧ Gone s s' 1 := by
  have hids : (run (next literal) (unconnected default) sharedRun).map (ids · 1) = some [2, 1] := by
    decide +kernel
  obtain ⟨s, hrun, hs⟩ := Option.map_eq_some_iff.mp hids
  refine ⟨s, hrun, (delOneClient_gone_iff literal default sharedRun hrun 1).mpr ?_⟩
  rw [hs]
  exact safeIds_of_nodup (by decide)

theorem delOneClient_reads_freed : ∃ s,
    run (next literal) (unconnected default) [.connect 1 [], .addRegexp 1 1 (ascii "a"),
      .addRegexp 1 1 (ascii "b")] = some s ∧ s.delOneClient 1 = none :=
  ⟨_, rfl, rfl⟩

end Disconnect

end IvyBus.Subscriptions
