import Mathlib.Data.List.Perm.Subperm
import IvyBus.OpenMpLaws

namespace IvyBus.OpenMp

open Lib Ivy

variable {Code : Type}

structure Inv (engine : Engine Code) (o : Omp Code) : Prop where
  cached : Cached o
  fits : Fitting engine o.ivy.tables
  connected : ∀ r, ∀ p ∈ o.ivy.listed r, (o.ivy.findClient p.1).isSome

section Inv

variable {engine : Engine Code} {o o' : Omp Code} {c : Handle} {line : Str} {s' : Ivy Code}

theorem mem_listed {e : MsgSndDict Code} {clnt : IvyClient} {s : Ivy Code} (h : s.Wf)
    (he : e ∈ s.messSndByRegexp) (hclnt : clnt ∈ e.clientList) :
    sub clnt ∈ s.listed e.regexpSrc := by
  have hfind : s.findEntry e.regexpSrc = some e := find?_cell h.dict.keys he
  rw [Ivy.listed, subscribers_of_find? hfind]
  exact List.mem_map_of_mem hclnt

theorem Inv.mirrors (h : Inv engine o) : Mirrors o := by
  obtain ⟨part, hpart⟩ := h.cached.holds
  have hnodup := h.cached.base.entries_nodup h.cached.wf
  refine ⟨hpart.sound hnodup, fun e he clnt hclnt =>
    h.cached.present e.regexpSrc (sub clnt) (mem_listed h.cached.wf he hclnt), fun hall => ?_⟩
  -- every entry has a subscriber, who is connected
  have hwhole : o.entries ⊆ part := by
    intro a ha
    rw [entries_eq] at ha
    obtain ⟨r, hr, rfl⟩ := List.mem_map.mp ha
    obtain ⟨p, hp⟩ := List.exists_mem_of_ne_nil _ (listed_ne_nil h.cached.wf hr)
    have hnode := h.connected r p hp
    rw [findClient_isSome] at hnode
    obtain ⟨clnt, hclnt, heq⟩ := List.mem_map.mp hnode
    have hended : o.ended p.1 = true := heq ▸ hall clnt hclnt
    exact hpart.mem_used.mp (h.cached.present r p hp hended)
  have hlength : o.entries.length ≤ part.length := (List.subperm_of_subset hnodup hwhole).length_le
  have hsame : part = o.entries :=
    hpart.part_prefix.eq_of_length (hpart.part_prefix.length_le.antisymm hlength)
  rw [hpart.used_eq, hsame]

theorem Cached.update (h : Cached o) (c : Handle) (received ended : Bool)
    (hle : received = true → ended = true) (hended : ended = true → o.ended c = true) :
    Cached { o with
      endRegexpReceived := Function.update o.endRegexpReceived c received
      ended := Function.update o.ended c ended } := by
  refine ⟨h.wf, ⟨h.base.address_inj, h.base.address_lt, h.base.slots_lt⟩, fun d hd => ?_, h.holds,
    fun r p hp hd => h.present r p hp ?_⟩
  · dsimp only at hd ⊢
    by_cases hc : d = c
    · rw [hc, Function.update_self] at hd ⊢
      exact hle hd
    · rw [Function.update_of_ne hc] at hd ⊢
      exact h.ended_of d hd
  · dsimp only at hd
    by_cases hc : p.1 = c
    · rw [hc, Function.update_self] at hd
      exact hc ▸ hended hd
    · rwa [Function.update_of_ne hc] at hd

theorem Cached.complete (h : Cached o) (hwf : o'.ivy.Wf) (hshrunk : Shrunk o o')
    (hholds : o'.ompDictCache.Holds o'.entries o'.entries) : Cached o' := by
  refine ⟨hwf, hshrunk.base, ?_, ⟨_, hholds⟩, present_of_holds hholds⟩
  rw [hshrunk.received_eq, hshrunk.ended_eq]
  exact h.ended_of

end Inv

section Lines

variable {engine : Engine Code} {o o' : Omp Code} {c : Handle} {line : Str} {clnt : IvyClient}
variable {hd : Header}

theorem receive_ignored (hfind : o.ivy.findClient c = some clnt)
    (hignore : clnt.ignoreSubsequentMsg = true) : o.receive engine c line = some o := by
  rw [Omp.receive, hfind]
  cases parseHeader line with
  | none =>
    dsimp only
    rw [Ivy.receive_ignored hfind hignore]
    rfl
  | some hd =>
    dsimp only
    rw [if_pos hignore]

theorem receive_parsed (hfind : o.ivy.findClient c = some clnt)
    (hopen : clnt.ignoreSubsequentMsg = false) (hparse : parseHeader line = some hd) :
    o.receive engine c line =
      match MsgType.ofInt32 hd.kindOfMsg with
      | some .addRegexp => Omp.receiveAddRegexp engine (o.put (o.ivy.setId c hd.id))
          { clnt with id := hd.id } hd.arg
      | some .delRegexp =>
        (o.put (o.ivy.setId c hd.id)).receiveDelRegexp { clnt with id := hd.id } hd.arg
      | some .startRegexp =>
        some { o with
          ivy := (o.ivy.setId c hd.id).receiveStartRegexp { clnt with id := hd.id } hd.arg
          endRegexpReceived := Function.update o.endRegexpReceived c false }
      | some .endRegexp =>
        let o := { o with
          ivy := (o.ivy.setId c hd.id).emit (.connected c)
          endRegexpReceived := Function.update o.endRegexpReceived c true
          ended := Function.update o.ended c true }.regenerateRegPtrArrayCache
        some (o.put (announceReady engine o.ivy c))
      | _ => (Ivy.receive engine o.ivy c line).map o.put := by
  rw [Omp.receive, hfind, hparse]
  dsimp only
  rw [if_neg (Bool.not_eq_true _ ▸ hopen)]
  rfl

theorem receive_others (hadd : kindOf line ≠ some .addRegexp)
    (hdel : kindOf line ≠ some .delRegexp) (hstart : kindOf line ≠ some .startRegexp)
    (hend : kindOf line ≠ some .endRegexp) :
    o.receive engine c line = (Ivy.receive engine o.ivy c line).map o.put := by
  cases hfind : o.ivy.findClient c with
  | none => rw [Omp.receive, hfind]
  | some clnt =>
    cases hopen : clnt.ignoreSubsequentMsg with
    | true =>
      rw [receive_ignored hfind hopen, Ivy.receive_ignored hfind hopen]
      rfl
    | false =>
      cases hparse : parseHeader line with
      | none => rw [Omp.receive, hfind, hparse]
      | some hd =>
        rw [kindOf, hparse, Option.bind_some] at hadd hdel hstart hend
        rw [receive_parsed hfind hopen hparse]
        split
        · exact absurd ‹_› hadd
        · exact absurd ‹_› hdel
        · exact absurd ‹_› hstart
        · exact absurd ‹_› hend
        · rfl

theorem Cached.others (h : Cached o) (hadd : kindOf line ≠ some .addRegexp)
    (hdel : kindOf line ≠ some .delRegexp) (hstart : kindOf line ≠ some .startRegexp)
    (hend : kindOf line ≠ some .endRegexp) (ho' : o.receive engine c line = some o') :
    Cached o' := by
  rw [receive_others hadd hdel hstart hend] at ho'
  obtain ⟨s', hs', rfl⟩ := Option.map_eq_some_iff.mp ho'
  exact h.put (h.wf.of_receive hs').1 (dict_receive hadd hdel hs')

theorem Cached.setId (h : Cached o) (c : Handle) (i : Int32) :
    Cached (o.put (o.ivy.setId c i)) :=
  h.put (h.wf.setId c i).wf rfl

theorem Cached.receiveAddRegexp (h : Cached o) (hfind : o.ivy.findClient c = some clnt)
    (ho' : Omp.receiveAddRegexp engine (o.put (o.ivy.setId c hd.id)) { clnt with id := hd.id }
      hd.arg = some o') (hwf : o'.ivy.Wf) :
    ((ivyBindingFilter engine o.ivy.filter hd.arg = true → o.ended c = true → Joins o c hd) →
      Cached o') ∧
    (ivyBindingFilter engine o.ivy.filter hd.arg = true → o.ended c = true → ¬ Joins o c hd →
      ¬ Mirrors o') := by
  rw [Omp.receiveAddRegexp] at ho'
  split at ho'
  · rename_i hpass
    have hclient : clnt.client = c := client_of_findClient hfind
    obtain ⟨v, u, s', hready, hu, rfl, hdict⟩ := (h.setId c hd.id).ready rfl ho'
    have hended : v.ended = o.ended := hready.ended_eq
    have hjoins : JoinsAt v hd.arg clnt.client ↔ Joins o c hd := hclient ▸ hready.joins
    constructor
    · intro hj
      have hadded : Cached u := by
        refine hready.cached.add hu fun hend => hjoins.mpr (hj hpass ?_)
        rw [← hended, ← hclient]
        exact hend
      exact hadded.put hwf hdict
    · intro _ hend hnot
      refine hready.cached.not_mirrors_add hu ?_ (fun hj => hnot (hjoins.mp hj)) hdict
      rw [hended]
      exact hclient.symm ▸ hend
  · rename_i hblocked
    rw [← Option.some.inj ho'] at hwf ⊢
    exact ⟨fun _ => (h.setId c hd.id).put hwf rfl, fun hpass => absurd hpass hblocked⟩

theorem Cached.receiveDelRegexp (h : Cached o)
    (ho' : (o.put (o.ivy.setId c hd.id)).receiveDelRegexp { clnt with id := hd.id } hd.arg =
      some o') (hwf : o'.ivy.Wf) : Cached o' := by
  have hid := h.setId c hd.id
  obtain ⟨⟨u, removed⟩, hu, rfl⟩ := Option.map_eq_some_iff.mp ho'
  obtain ⟨hshrunk, hwalk⟩ := hid.base.shrunk.delRegexpForOneClient hu
  dsimp only at hwf ⊢
  have huwf : u.ivy.Wf := by
    split at hwf
    · exact ⟨hwf.dict, hwf.clients⟩
    · exact hwf
  have hcached : Cached u := by
    rcases hwalk with rfl | hholds
    · exact hid
    · exact hid.complete huwf hshrunk hholds
  split
  · exact hcached.put (huwf.emit _) rfl
  · exact hcached

theorem Cached.receiveStartRegexp (h : Cached o) {s' : Ivy Code} (hwf : s'.Wf)
    (hdict : s'.messSndByRegexp = o.ivy.messSndByRegexp) :
    Cached { o with
      ivy := s'
      endRegexpReceived := Function.update o.endRegexpReceived c false } := by
  have hupdate := (h.put hwf hdict).update c false (o.ended c) nofun id
  have hsame : Function.update (o.put s').ended c (o.ended c) = o.ended :=
    Function.update_eq_self ..
  rwa [hsame] at hupdate

theorem Cached.receiveEndRegexp (h : Cached o) {t : Ivy Code} (hwf : t.Wf)
    (hdict : t.messSndByRegexp = o.ivy.messSndByRegexp) :
    Cached { o with
      ivy := t
      endRegexpReceived := Function.update o.endRegexpReceived c true
      ended := Function.update o.ended c true }.regenerateRegPtrArrayCache := by
  have hput := (h.put hwf hdict).base
  have hbase : Base { o with
      ivy := t
      endRegexpReceived := Function.update o.endRegexpReceived c true
      ended := Function.update o.ended c true } :=
    ⟨hput.address_inj, hput.address_lt, hput.slots_lt⟩
  have hholds := holds_regenerate { o with
      ivy := t
      endRegexpReceived := Function.update o.endRegexpReceived c true
      ended := Function.update o.ended c true }
  refine ⟨hwf, hbase.regenerate, fun d hd => ?_, ⟨_, hholds⟩, present_of_holds hholds⟩
  change Function.update o.endRegexpReceived c true d = true at hd
  change Function.update o.ended c true d = true
  by_cases hc : d = c
  · rw [hc, Function.update_self]
  · rw [Function.update_of_ne hc] at hd ⊢
    exact h.ended_of d hd

theorem Cached.receive_others (h : Cached o) (hfind : o.ivy.findClient c = some clnt)
    (hopen : clnt.ignoreSubsequentMsg = false) (hadd : kindOf line ≠ some .addRegexp)
    (ho' : o.receive engine c line = some o') (hwf : o'.ivy.Wf) : Cached o' := by
  by_cases hdel : kindOf line = some .delRegexp
  · obtain ⟨hd, hparse, hkind⟩ := Option.bind_eq_some_iff.mp hdel
    rw [receive_parsed hfind hopen hparse, hkind] at ho'
    exact h.receiveDelRegexp ho' hwf
  by_cases hstart : kindOf line = some .startRegexp
  · obtain ⟨hd, hparse, hkind⟩ := Option.bind_eq_some_iff.mp hstart
    rw [receive_parsed hfind hopen hparse, hkind] at ho'
    rw [← Option.some.inj ho'] at hwf ⊢
    exact h.receiveStartRegexp hwf (dict_receiveStartRegexp ..)
  by_cases hend : kindOf line = some .endRegexp
  · obtain ⟨hd, hparse, hkind⟩ := Option.bind_eq_some_iff.mp hend
    rw [receive_parsed hfind hopen hparse, hkind] at ho'
    rw [← Option.some.inj ho'] at hwf ⊢
    have hid := (h.wf.setId c hd.id).wf
    exact (h.receiveEndRegexp (hid.emit _) rfl).put hwf (dict_announceReady ..)
  exact h.others hadd hdel hstart hend ho'

theorem Cached.receive (h : Cached o) (hfit : Fitting engine o.ivy.tables)
    (ho' : o.receive engine c line = some o') :
    (LineJoins engine o (.line c line) → Cached o') ∧
      (¬ LineJoins engine o (.line c line) → ¬ Mirrors o') := by
  have hivy : Ivy.receive engine o.ivy c line = some o'.ivy := by
    rw [← ivy_receive, ho']
    rfl
  have hwf := (h.wf.of_receive hivy).1
  obtain ⟨clnt, hfind, ⟨hignore, -⟩ | hopen⟩ := receive_cases hivy
  · rw [receive_ignored hfind hignore] at ho'
    refine ⟨fun _ => Option.some.inj ho' ▸ h, fun hnot => absurd ?_ hnot⟩
    intro clnt' _ hfind' hopen'
    rw [← Option.some.inj (hfind.symm.trans hfind'), hignore] at hopen'
    cases hopen'
  · by_cases hadd : kindOf line = some .addRegexp
    · obtain ⟨hd, hparse, hkind⟩ := Option.bind_eq_some_iff.mp hadd
      rw [receive_parsed hfind hopen hparse, hkind] at ho'
      obtain ⟨hgood, hbad⟩ := h.receiveAddRegexp hfind ho' hwf
      have hfits := (h.wf.receive_isSome_iff hfit hfind hopen).mp (Option.isSome_of_eq_some hivy)
      constructor
      · exact fun hj => hgood fun hpass hend =>
          hj clnt hd hfind hopen hparse hkind hpass (hfits hd hparse hkind hpass) hend
      · intro hnot hmirrors
        refine hnot fun clnt' hd' _ _ hparse' _ hpass _ hend => ?_
        obtain rfl := Option.some.inj (hparse.symm.trans hparse')
        by_contra hj
        exact hbad hpass hend hj hmirrors
    · have hjoins : LineJoins engine o (.line c line) := by
        intro clnt hd _ _ hparse hkind
        rw [kindOf, hparse] at hadd
        exact absurd hkind hadd
      exact ⟨fun _ => h.receive_others hfind hopen hadd ho' hwf, fun hnot => absurd hjoins hnot⟩

end Lines

section Runs

variable {engine : Engine Code} {o o' : Omp Code} {c : Handle}

theorem Inv.line (h : Inv engine o) {bytes : Str} (ho' : o.receive engine c bytes = some o')
    (hj : LineJoins engine o (.line c bytes)) : Inv engine o' := by
  have hivy : Ivy.receive engine o.ivy c bytes = some o'.ivy := by
    rw [← ivy_receive, ho']
    rfl
  refine ⟨(h.cached.receive h.fits ho').1 hj, h.cached.wf.fitting_receive h.fits hivy,
    fun r p hp => ?_⟩
  rw [findClient_isSome, handles_receive h.cached.wf hivy, ← findClient_isSome]
  rcases (h.cached.wf.of_receive hivy).2 r p hp with ⟨hown, hnode⟩ | hold
  · exact hown ▸ hnode
  · exact h.connected r p hold

theorem Inv.open (h : Inv engine o) (c : Handle) (info : SocketInfo) :
    Inv engine (o.open c info) := by
  let s : Ivy Code := { o.ivy with sockets := Function.update o.ivy.sockets c info }
  have hwf : s.Wf := ⟨h.cached.wf.dict, h.cached.wf.clients⟩
  exact ⟨(h.cached.put hwf rfl).update c false false nofun nofun, h.fits, h.connected⟩

theorem Inv.sendService (h : Inv engine o) (hnew : o.ivy.findClient c = none) (appname : Str) :
    Inv engine (o.put (sendService engine o.ivy c appname)) := by
  obtain ⟨hwf, -, htables⟩ := h.cached.wf.sendService engine hnew appname
  refine ⟨h.cached.put hwf ?_, htables ▸ h.fits, fun r p hp => ?_⟩
  · rw [sendService_eq engine hnew]
  · change p ∈ (Ivy.sendService engine o.ivy c appname).tables.listed r at hp
    rw [htables] at hp
    have hold := h.connected r p hp
    change ((Ivy.sendService engine o.ivy c appname).findClient p.1).isSome
    rw [findClient_isSome] at hold ⊢
    rw [sendService_eq engine hnew]
    exact List.mem_cons_of_mem _ hold

theorem Inv.delOneClient (h : Inv engine o) (ho' : o.delOneClient c = some o') :
    Inv engine o' := by
  have hivy : o.ivy.delOneClient c = some o'.ivy := by
    rw [← ivy_delOneClient, ho']
    rfl
  have hdis := h.cached.wf.of_delOneClient hivy
  obtain ⟨hshrunk, hholds⟩ := h.cached.base.shrunk.delOneClient ho'
  refine ⟨h.cached.complete hdis.wf hshrunk hholds, hdis.tables_eq ▸ h.fits.disconnect c,
    fun r p hp => ?_⟩
  change p ∈ o'.ivy.tables.listed r at hp
  rw [hdis.tables_eq, Tables.mem_disconnect] at hp
  exact hdis.findClient_isSome.mpr ⟨h.connected r p hp.1, hp.2⟩

theorem Inv.next (h : Inv engine o) {e : Event} (hj : LineJoins engine o e)
    (ho' : next engine o e = some o') : Inv engine o' := by
  cases e with
  | connect c info appname =>
    refine preserved_unless h ho' fun hnew ho' => ?_
    rw [Bool.not_eq_true, Option.isSome_eq_false_iff, Option.isNone_iff_eq_none] at hnew
    rw [← Option.some.inj ho']
    exact (h.open c info).sendService hnew appname
  | accept c info appname =>
    refine preserved_unless h ho' fun hnew ho' => ?_
    rw [Bool.not_eq_true, Option.isSome_eq_false_iff, Option.isNone_iff_eq_none] at hnew
    rw [← Option.some.inj ho']
    have hopened := h.open c info
    rw [clientCreate]
    split
    · exact ⟨hopened.cached.put (hopened.cached.wf.emit _) rfl, hopened.fits, hopened.connected⟩
    · exact hopened.sendService hnew appname
  | line c bytes => exact preserved_when h ho' fun _ ho' => h.line ho' hj
  | disconnect c => exact h.delOneClient ho'

theorem Inv.mirrorsAfter_iff (h : Inv engine o) (e : Event) :
    MirrorsAfter engine o e ↔ LineJoins engine o e := by
  constructor
  · intro hafter
    cases e with
    | line c bytes =>
      by_contra hnot
      obtain ⟨clnt, hfind, hopen, hfits⟩ : ∃ clnt, o.ivy.findClient c = some clnt ∧
          clnt.ignoreSubsequentMsg = false ∧ AddFits engine o.ivy bytes := by
        by_contra hnone
        refine hnot fun clnt hd hfind hopen hparse _ _ hfits => ?_
        refine absurd ⟨clnt, hfind, hopen, fun hd' hparse' _ _ => ?_⟩ hnone
        rwa [← Option.some.inj (hparse.symm.trans hparse')]
      obtain ⟨t, ht⟩ := Option.isSome_iff_exists.mp
        ((h.cached.wf.receive_isSome_iff h.fits hfind hopen).mpr hfits)
      rw [← ivy_receive] at ht
      obtain ⟨o', ho', -⟩ := Option.map_eq_some_iff.mp ht
      refine (h.cached.receive h.fits ho').2 hnot (hafter o' ?_)
      rw [OpenMp.next, if_pos (Option.isSome_of_eq_some hfind)]
      exact ho'
    | connect c info appname => trivial
    | accept c info appname => trivial
    | disconnect c => trivial
  · exact fun hj o' ho' => (h.next hj ho').mirrors

theorem inv_alone (engine : Engine Code) (s : Ivy Code) : Inv engine (alone s) :=
  ⟨⟨⟨⟨List.nodup_nil, nofun⟩, ⟨List.nodup_nil, nofun⟩⟩, ⟨nofun, nofun, nofun⟩, nofun,
    ⟨[], Cache.holds_empty⟩, nofun⟩, nofun, nofun⟩

/-- In every state of a run the cache mirrors the dictionary, exactly when the entries of the
clients that have ended their announcement join it. -/
theorem cache_mirrors_iff (engine : Engine Code) (s : Ivy Code) (es : List Event) :
    Mirrors (alone s) ∧ Along (next engine) (MirrorsAfter engine) (alone s) es ↔
      Along (next engine) (LineJoins engine) (alone s) es := by
  rw [and_iff_right (inv_alone engine s).mirrors]
  exact along_iff (fun _ e h => Inv.mirrorsAfter_iff h e)
    (fun _ _ _ h hj ho' => Inv.next h hj ho') (inv_alone engine s) es

set_option maxRecDepth 4096 in
/-- The first slot was never written: its entry was left out, for its client has not ended its
announcement. -/
theorem left_out_not_mirrored : ∃ o,
    run (next literal) (alone default)
      [.connect 1 ⟨0, 0, 0⟩ [], .line 1 (header .endRegexp 0), .connect 2 ⟨0, 0, 0⟩ [],
        .line 2 (header .addRegexp 1 ++ ascii "b"), .line 1 (header .addRegexp 1 ++ ascii "a")] =
      some o ∧ ¬ Mirrors o := by
  refine ⟨_, rfl, fun h => ?_⟩
  obtain ⟨a, -, ha⟩ := h.sound.live none List.mem_cons_self
  cases ha

end Runs

end IvyBus.OpenMp
