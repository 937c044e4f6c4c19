import Roots.Crypto.Sample
import Roots.Router.Fanout
import Roots.Router.Rules.Driver

/-!
# Roots.Router.Advertised

The book of the filters that were sent, against the wire. `bloom.send` has a filter for
every peer, and a peer of the tree is only written to when its filter changes, so **the
filter in the book should be the last one that went out on every link of the peer**
(`World.Told`). `register` writes the one it finds to a new link and `bloom_maintenance`
writes the ones it changes, to all links of the peer.

There are two ways out of step. `bloom_fix` puts a blank filter into the book for a peer that
has left the tree, and nobody writes it: `bloom_maintenance` goes on with the peers that are
on the tree. And a fan-out ends at the first link that refuses the filter. `filters_told` is
about the runs in which neither happens.
-/

namespace Roots

open Prog RouterM Relation
open Sample (smallKey)

section

variable [Crypto] {w w' : World}

/-! ## The last filter on a link -/

omit [Crypto] in
/-- The filter an event wrote to a link. -/
def Event.filterOn (id : LinkId) : Event → Option Bytes
  | .wrote id' .bloomFilter payload => if id' = id then some payload else none
  | _ => none

/-- The last filter that was written to a link. -/
def World.lastFilter (w : World) (id : LinkId) : Option Bytes :=
  (w.events.filterMap (Event.filterOn id)).getLast?

theorem World.lastFilter_append {id : LinkId} {es : List Event}
    (hevents : w'.events = w.events ++ es) (hes : ∀ e ∈ es, e.filterOn id = none) :
    w'.lastFilter id = w.lastFilter id := by
  rw [lastFilter, lastFilter, hevents, List.filterMap_append, List.filterMap_eq_nil_iff.mpr hes,
    List.append_nil]

theorem World.lastFilter_concat {id : LinkId} {es : List Event} {bytes : Bytes}
    (hevents : w'.events = w.events ++ es) (hne : ∃ e ∈ es, e.filterOn id ≠ none)
    (hes : ∀ e ∈ es, e.filterOn id = none ∨ e.filterOn id = some bytes) :
    w'.lastFilter id = some bytes := by
  have hnil : es.filterMap (Event.filterOn id) ≠ [] := by
    obtain ⟨e, he, hfilter⟩ := hne
    obtain ⟨b, hb⟩ := Option.ne_none_iff_exists'.mp hfilter
    exact List.ne_nil_of_mem (List.mem_filterMap.mpr ⟨e, he, hb⟩)
  rw [lastFilter, hevents, List.filterMap_append, List.getLast?_append_of_ne_nil _ hnil,
    List.getLast?_eq_some_getLast hnil, Option.some.injEq]
  obtain ⟨e, he, hlast⟩ := List.mem_filterMap.mp (List.getLast_mem hnil)
  rcases hes e he with hnone | hsome
  · cases hnone.symm.trans hlast
  · exact Option.some.inj (hlast.symm.trans hsome)

omit [Crypto] in
theorem Event.filterOn_of_not {e : Event} (h : e.isFilter = false) (id : LinkId) :
    e.filterOn id = none := by
  unfold Event.filterOn
  split
  · cases h
  · rfl

/-- The book has a filter for the peer of every link, and it is the last one the link got. -/
def World.Told (w : World) : Prop :=
  ∀ e ∈ w.links.entries, ∃ b, w.router.bloom.send.lookup e.peer = some b ∧
    w.lastFilter e.id = some b.bytes

/-! ## Steps without filters -/

/-- No filter is written and the book stays as it is. -/
structure Hushed (w w' : World) : Prop where
  send : w'.router.bloom.send = w.router.bloom.send
  entries : w'.links.entries.Sublist w.links.entries
  last : ∀ id, w'.lastFilter id = w.lastFilter id

namespace Hushed

theorem refl (w : World) : Hushed w w := ⟨rfl, .refl _, fun _ => rfl⟩

theorem trans {w'' : World} (h : Hushed w w') (h' : Hushed w' w'') : Hushed w w'' :=
  ⟨h'.send.trans h.send, h'.entries.trans h.entries, fun id => (h'.last id).trans (h.last id)⟩

theorem told (h : Hushed w w') (htold : w.Told) : w'.Told := by
  intro e he
  obtain ⟨b, hsend, hlast⟩ := htold e (h.entries.subset he)
  exact ⟨b, by rw [h.send, hsend], by rw [h.last, hlast]⟩

end Hushed

/-- The same context with the links and the filters as they are. -/
def Scope.hushed (S : Scope) : Scope := { S with rewires := False, filters := False }

theorem Step.hushed {S : Scope} (h : Step S.hushed w w') : Hushed w w' := by
  cases h with
  | enter hrewires | join hrewires | leave hrewires => exact hrewires.elim
  | bloom hfilters => exact hfilters.elim
  | retire id => exact { Hushed.refl w with entries := List.eraseP_sublist }
  | notes es hes =>
    refine { Hushed.refl w with last := fun id => World.lastFilter_append rfl fun e he => ?_ }
    exact Event.filterOn_of_not (Bool.eq_false_iff.mpr (hes e he).2.2) id
  | stash | release | deliver =>
    refine { Hushed.refl w with last := fun id => World.lastFilter_append rfl fun e he => ?_ }
    rw [List.mem_singleton.mp he]
    rfl
  | _ => exact { Hushed.refl w with }

theorem Hushed.of_walk {S : Scope} (h : ReflTransGen (Step S.hushed) w w') : Hushed w w' := by
  induction h with
  | refl => exact .refl w
  | tail _ hstep ih => exact ih.trans hstep.hushed

theorem Inv.hushed (h : Inv .free w) : Inv Scope.free.hushed w := { h with }

theorem Hushed.of_obeys {α : Type} {m : RouterM α} (hw : Inv .free w)
    (hm : Obeys (rules Scope.free.hushed False) m w) : Hushed w (m w).2 :=
  .of_walk (hm.walk hw.hushed)

/-! ## Advertising -/

/-- A fan-out of a filter that is in the book. -/
theorem Fanned.told {peer : Key} {b : BloomFilter} {ids : List LinkId}
    (h : Fanned ids .bloomFilter b.bytes w w') (hids : ids = w.links.linksTo peer)
    (hnodup : w.links.ids.Nodup) (hsend : w.router.bloom.send.lookup peer = some b)
    (htold : ∀ e ∈ w.links.entries, e.peer ≠ peer → ∃ b, w.router.bloom.send.lookup e.peer = some b ∧
      w.lastFilter e.id = some b.bytes) : w'.Told := by
  intro e he
  rw [h.entries] at he
  have hmine : e.id ∈ w.links.linksTo e.peer := LinkSet.mem_linksTo.mpr he
  by_cases hpeer : e.peer = peer
  · refine ⟨b, by rw [h.router, hpeer, hsend], World.lastFilter_concat h.events ?_ fun x hx => ?_⟩
    · refine ⟨_, List.mem_map_of_mem (hids ▸ hpeer ▸ hmine), ?_⟩
      simp [Event.filterOn]
    · obtain ⟨i, -, rfl⟩ := List.mem_map.mp hx
      by_cases hi : i = e.id <;> simp [Event.filterOn, hi]
  · obtain ⟨b', hsend', hlast⟩ := htold e he hpeer
    refine ⟨b', by rw [h.router, hsend'], ?_⟩
    rw [World.lastFilter_append h.events, hlast]
    intro x hx
    obtain ⟨i, hi, rfl⟩ := List.mem_map.mp hx
    have hne : i ≠ e.id := by
      rintro rfl
      exact hpeer (LinkSet.peer_unique hnodup hmine (hids ▸ hi))
    simp [Event.filterOn, hne]

/-- A book that is told, in a state in which it stays so. -/
structure World.Steadfast (w : World) : Prop where
  told : w.Told
  whole : w.Whole
  nodup : w.links.ids.Nodup

/-- One peer of `bloom_maintenance`. -/
theorem advertise_steadfast (h : w.Steadfast) (pk : Key) : (advertise pk w).2.Steadfast := by
  obtain ⟨htold, hwhole, hnodup⟩ := h
  rw [advertise, router, Prog.gets_bind]
  by_cases hsame : w.router.bloom.send.lookup pk = some (w.router.bloomFor pk)
  · rw [if_pos hsame]
    exact ⟨htold, hwhole, hnodup⟩
  rw [if_neg hsame]
  set b := w.router.bloomFor pk
  let v : World := { w with router.bloom.send := w.router.bloom.send.insert pk b }
  -- The filters of the other peers are still what they were.
  have hothers : ∀ e ∈ v.links.entries, e.peer ≠ pk → ∃ b, v.router.bloom.send.lookup e.peer = some b ∧
      v.lastFilter e.id = some b.bytes := by
    intro e he hne
    obtain ⟨b', hsend, hlast⟩ := htold e he
    exact ⟨b', by rw [← hsend, Assoc.lookup_insert_ite, if_neg hne], hlast⟩
  have hsend : v.router.bloom.send.lookup pk = some b := AList.lookup_insert _
  rw [modifyBloom, Prog.modify_bind, BloomFilter.encode_eq]
  change ((if (v.links.linksTo pk).isEmpty then return () else
    writeAll pk .bloomFilter b.bytes : RouterM Unit) v).2.Steadfast
  split
  · rename_i hnone
    refine ⟨fun e he => hothers e he ?_, hwhole, hnodup⟩
    rintro rfl
    rw [List.isEmpty_iff] at hnone
    exact absurd (LinkSet.mem_linksTo.mpr he) (by simp [hnone])
  · rename_i hsome
    have hlinked : v.links.linksTo pk ≠ [] := fun hnil => hsome (by rw [hnil]; rfl)
    rcases writeAll_whole (w := v) hwhole hnodup hlinked .bloomFilter b.bytes with
      ⟨v', hrun, hfan⟩ | ⟨id, v', hfan, hrun, hgone⟩
    · rw [hrun]
      refine ⟨hfan.told rfl hnodup hsend hothers, ?_, ?_⟩
      · exact World.Whole.of_sublist (w := v) hwhole (hfan.entries ▸ .refl _) hfan.env
          (hfan.tick ▸ Nat.le_add_right _ _)
      · exact hfan.ids_eq ▸ hnodup
    · rw [hrun]
      have hentries : (v'.refused id).links.entries.Sublist v.links.entries :=
        hfan.entries ▸ List.eraseP_sublist
      refine ⟨fun e he => ?_, ?_, hnodup.sublist (hentries.map _)⟩
      · have hne : e.peer ≠ pk := by
          rintro rfl
          exact absurd (LinkSet.mem_linksTo.mpr he) (by simp [hgone])
        obtain ⟨b', hsend', hlast⟩ := hothers e (hentries.subset he) hne
        refine ⟨b', ?_, ?_⟩
        · show v'.router.bloom.send.lookup e.peer = some b'
          rw [hfan.router, hsend']
        · show v'.lastFilter e.id = some b'.bytes
          rw [World.lastFilter_append hfan.events (by simp), hlast]
      · refine World.Whole.of_sublist (w := v) hwhole hentries hfan.env ?_
        show v.tick ≤ v'.tick + 1
        rw [hfan.tick]
        omega

/-- No peer with a link leaves the tree with the next `bloom_fix`. -/
def World.KeepsTree (w : World) : Prop :=
  ∀ i, w.router.tree.infos.lookup w.router.pubkey = some i → ∀ e ∈ w.links.entries,
    w.router.bloom.onTree.lookup e.peer = some true → w.router.isOnTree i.parent e.peer = true

omit [Crypto] in
theorem lookup_tableInsert_of_ne {t : Assoc Key Bool} {k k' : Key} (h : k' ≠ k) (v : Bool) :
    (tableInsert t k v).lookup k' = t.lookup k' := by
  unfold tableInsert
  split
  · rw [Assoc.lookup_insert_ite, if_neg h]
  · rfl

/-- `bloom_fix` leaves the filter of a peer alone that is on the tree or was not before. -/
theorem lookup_send_bloomFix {r : Router} {p : Key}
    (h : ∀ i, r.tree.infos.lookup r.pubkey = some i → r.bloom.onTree.lookup p = some true →
      r.isOnTree i.parent p = true) :
    r.bloomFix.send.lookup p = r.bloom.send.lookup p := by
  unfold Router.bloomFix
  split
  · rfl
  rename_i i hi
  -- As long as the peer is off the tree it is not marked as on it.
  have hfold : ∀ (keys : List Key) (b : BloomState),
      (r.isOnTree i.parent p = false → b.onTree.lookup p ≠ some true) →
      (keys.foldl (r.fixPeer i.parent) b).send.lookup p = b.send.lookup p := by
    intro keys
    induction keys with
    | nil => exact fun _ _ => rfl
    | cons k keys ih =>
      intro b hoff
      rw [List.foldl_cons, ih]
      · by_cases hk : p = k
        · subst hk
          show (if _ then _ else _ : Assoc Key BloomFilter).lookup p = _
          rw [if_neg]
          rintro ⟨hwas, hon⟩
          refine hoff ((Bool.not_eq_true _).mp hon) ?_
          cases hlookup : b.onTree.lookup p with
          | none => simp [hlookup] at hwas
          | some was => simpa [hlookup] using hwas
        · show (if _ then _ else _ : Assoc Key BloomFilter).lookup p = _
          split
          · rw [Assoc.lookup_insert_ite, if_neg hk]
          · rfl
      · intro hfalse
        show (tableInsert b.onTree k (r.isOnTree i.parent k)).lookup p ≠ some true
        by_cases hk : p = k
        · subst hk
          unfold tableInsert
          split
          · rw [AList.lookup_insert, hfalse]
            simp
          · exact hoff hfalse
        · rw [lookup_tableInsert_of_ne hk]
          exact hoff hfalse
  refine hfold _ _ fun hfalse htrue => ?_
  rw [h i hi htrue] at hfalse
  cases hfalse

theorem bloomMaintenance_steadfast (h : w.Steadfast) (hkeeps : w.KeepsTree) :
    (bloomMaintenance w).2.Steadfast := by
  have hfix : World.Steadfast { w with router.bloom := w.router.bloomFix } := by
    refine ⟨fun e he => ?_, h.whole, h.nodup⟩
    obtain ⟨b, hsend, hlast⟩ := h.told e he
    refine ⟨b, ?_, hlast⟩
    rw [← hsend]
    exact lookup_send_bloomFix fun i hi => hkeeps i hi e he
  rw [bloomMaintenance, Prog.modify_bind, router, Prog.gets_bind]
  refine snd_bind (P := World.Steadfast) ?_ fun peers w' _ hw' => ?_
  · exact ⟨hfix.told, hfix.whole.of_sublist (.refl _) rfl (Nat.le_succ _), hfix.nodup⟩
  · exact snd_forEach hw' fun pk _ v hv => advertise_steadfast hv pk

/-- What `maintain` does before it comes to the filters. -/
def announcing : RouterM Unit := do
  expireTree
  fix
  sendAnnounces

theorem maintain_eq : maintain = (do
    announcing
    bloomMaintenance
    sweep : RouterM Unit) := by
  funext w
  simp only [maintain, tidy, announcing, run_bind]
  cases hexpire : expireTree w with
  | mk r w₁ =>
    cases r with
    | error e => rfl
    | ok _ =>
      dsimp only
      cases hfix : fix w₁ with
      | mk r w₂ => cases r <;> rfl

theorem announcing_allows {S : Scope} (hgrows : S.grows) (hadopt : S.adopts) (hages : S.ages)
    (hmarks : S.marks) (hstamps : S.stamps) : (rules S False).Allows announcing :=
  .bind (expireTree_allows hages) fun _ => .bind (fix_allows hgrows hadopt hstamps) fun _ =>
    sendAnnounces_allows hmarks

/-- What must hold where `maintain` comes to the filters. -/
def World.Advertises (w : World) : Action → Prop
  | .maintain => ∀ v, announcing w = (.ok (), v) → v.Whole ∧ v.KeepsTree
  | _ => True

theorem announcing_told (hinv : Inv .free w) (h : w.Told) : (announcing w).2.Told :=
  (Hushed.of_obeys hinv (announcing_allows trivial trivial trivial trivial trivial w)).told h

theorem maintain_told (hinv : Inv .free w) (h : w.Told) (hadvertises : w.Advertises .maintain) :
    (maintain w).2.Told := by
  rw [maintain_eq]
  refine snd_bind (announcing_told hinv h) fun _ v hv htold => ?_
  have hinv₁ : Inv .free v :=
    hinv.of_allows (announcing_allows trivial trivial trivial trivial trivial) hv
  obtain ⟨hwhole, hkeeps⟩ := hadvertises v hv
  have hbloom := bloomMaintenance_steadfast ⟨htold, hwhole, hinv₁.nodup⟩ hkeeps
  refine snd_bind hbloom.told fun _ v' hv' htold' => ?_
  have hinv₂ : Inv .free v' := hinv₁.of_allows (bloomMaintenance_allows trivial) hv'
  exact (Hushed.of_obeys hinv₂ (sweep_allows False.elim trivial trivial v')).told htold'

/-! ## New links -/

/-- The filter of the peer goes out on the new link. -/
theorem sendFilter_told {id : LinkId} {peer : Key} {b : BloomFilter}
    (hsend : w.router.bloom.send.lookup peer = some b) (hnew : id ∉ w.links.ids) (h : w.Told) :
    (sendFilter id peer w).2.Told ∧
      ∀ w', sendFilter id peer w = (.ok (), w') →
        w'.router.bloom.send.lookup peer = some b ∧ w'.lastFilter id = some b.bytes := by
  have hrun : sendFilter id peer w = writeConn id .bloomFilter b.bytes w := by
    rw [sendFilter, router, Prog.gets_bind, hsend]
    dsimp only
    rw [BloomFilter.encode_eq]
    rfl
  rw [hrun, writeConn_run]
  split
  · refine ⟨fun e he => ?_, fun w' h' => ?_⟩
    · obtain ⟨b', hsend', hlast⟩ := h e he
      refine ⟨b', hsend', ?_⟩
      rw [World.lastFilter_append rfl fun x hx => ?_, hlast]
      have hne : id ≠ e.id := fun heq => hnew (heq ▸ List.mem_map_of_mem he)
      rw [List.mem_singleton.mp hx, Event.filterOn, if_neg hne]
    · cases h'
      refine ⟨hsend, World.lastFilter_concat rfl ⟨_, List.mem_singleton.mpr rfl, ?_⟩ fun x hx => ?_⟩
      · simp [Event.filterOn]
      · rw [List.mem_singleton.mp hx, Event.filterOn, if_pos rfl]
        exact .inr rfl
  · exact ⟨h, fun w' h' => by cases h'⟩

/-- Registering a link tells it the filter of its peer and no other link anything. -/
theorem register_told (hinv : Inv .free w) {id : LinkId} (hnew : id ∉ w.links.ids) (peer : Key)
    (prio : UInt8) (h : w.Told) :
    (register id peer prio w).2.Told ∧
      ∀ w', register id peer prio w = (.ok (), w') →
        ∃ b, w'.router.bloom.send.lookup peer = some b ∧ w'.lastFilter id = some b.bytes := by
  obtain ⟨port, order, req, u, hwalk, hsame, hrun⟩ := register_enters trivial hinv.hushed id peer prio
  have hu : Inv Scope.free.hushed u := Rules.inv_of_walk (R := rules _ False) hwalk hinv.hushed
  have hushed := Hushed.of_walk hwalk
  obtain ⟨v, hv⟩ : ∃ v, enterLink id peer prio port order req u = (.ok (), v) := ⟨_, rfl⟩
  have henter : Obeys (rules .free False) (enterLink id peer prio port order req) u :=
    enterLink_obeys trivial trivial trivial trivial (by rwa [hsame.links]) _ _ _ _ _
  have hinv₁ : Inv .free v := henter.inv_of_eq { hu with } hv
  rw [hrun, run_bind_ok hv]
  -- The peer has a filter in the book from now on.
  obtain ⟨b, hsend⟩ : ∃ b, v.router.bloom.send.lookup peer = some b := by
    cases hv
    exact ⟨_, (Assoc.lookup_orInsert _ _ _ _).trans (if_pos rfl)⟩
  have htold : v.Told := by
    cases hv
    intro e he
    obtain ⟨b', hsend', hlast⟩ := hushed.told h e he
    refine ⟨b', ?_, hlast⟩
    refine (Assoc.lookup_orInsert _ _ _ _).trans ?_
    rw [hsend']
    split <;> rfl
  have hnew' : id ∉ v.links.ids := by
    cases hv
    exact fun hmem => hnew ((hushed.entries.map _).subset hmem)
  obtain ⟨hfilter, hgot⟩ := sendFilter_told hsend hnew' htold
  have hrest : ∀ known : Bool, (rules Scope.free.hushed False).Allows (do
      writeConn id .sigReq req.encode
      if known then replay id peer else return () : RouterM Unit) := fun _ =>
    .bind (writeConn_allows (Writes.wrote (by decide) (by decide)) _ _) fun _ =>
      .ite (replay_allows _ _) (.pure _)
  refine ⟨snd_bind hfilter fun _ v₁ h₁ htold₁ => ?_, fun w' h' => ?_⟩
  · have hinv₂ : Inv .free v₁ := hinv₁.of_allows (sendFilter_allows trivial id peer) h₁
    exact (Hushed.of_obeys hinv₂ (hrest _ v₁)).told htold₁
  · obtain ⟨_, v₁, h₁, h'⟩ := run_bind_eq_ok h'
    have hinv₂ : Inv .free v₁ := hinv₁.of_allows (sendFilter_allows trivial id peer) h₁
    have hquiet := Hushed.of_walk ((hrest _ v₁).walk_of_eq hinv₂.hushed h')
    obtain ⟨hsend', hlast⟩ := hgot v₁ h₁
    exact ⟨b, by rw [hquiet.send, hsend'], by rw [hquiet.last, hlast]⟩

theorem connect_told (hinv : Inv .free w) (h : w.Told) (peer : Key) (prio : UInt8) (kept : Bool) :
    (connect peer prio kept w).2.Told := by
  have hinv₁ : Inv .free { w with nextLink := w.nextLink + 1 } := hinv.step .mint
  have hnew : w.nextLink ∉ w.links.ids := fun hmem => lt_irrefl _ (hinv.minted _ hmem)
  obtain ⟨htold, hgot⟩ := register_told hinv₁ hnew peer prio h
  rw [connect_eq]
  refine snd_bind htold fun _ w' h' htold' => ?_
  cases kept with
  | false => exact htold'
  | true =>
    intro e he
    have hmem : e ∈ w'.links.entries ++ [⟨w.nextLink, peer⟩] := he
    rcases List.mem_append.mp hmem with hmem | hmem
    · exact htold' e hmem
    · cases List.mem_singleton.mp hmem
      exact hgot w' h'

/-! ## Runs -/

theorem act_told (hinv : Inv .free w) (h : w.Told) (a : Action) (hadvertises : w.Advertises a) :
    (w.act a).Told := by
  have hquiet : ∀ a, Scope.free.hushed.Fits a → (w.act a).Told := fun a hfits =>
    (Hushed.of_obeys hinv (a.body_obeys False.elim hfits
      (w.permits_all (fun _ _ => trivial) (fun _ _ => trivial) (fun _ => trivial) a))).told h
  cases a with
  | connect peer prio kept => exact connect_told hinv h peer prio kept
  | disconnect id =>
    have hgone : Hushed w (w.act (.disconnect id)) :=
      { Hushed.refl w with entries := List.eraseP_sublist }
    exact hgone.told h
  | maintain => exact maintain_told hinv h hadvertises
  | frame conn ftype payload => cases ftype <;> exact hquiet _ (by trivial)
  | _ => exact hquiet _ trivial

/-- The book is told after every run in which no linked peer leaves the tree and no fan-out can
leave a link behind. -/
theorem told_run {seed : Key} {env : Env} {actions : List Action}
    (h : (World.init seed env).Along World.Advertises actions) :
    ((World.init seed env).run actions).Told := by
  induction actions using List.reverseRecOn with
  | nil => exact fun e he => absurd he List.not_mem_nil
  | append_singleton actions a ih =>
    obtain ⟨hbefore, hlast⟩ := World.along_append.mp h
    rw [World.run_append]
    exact act_told (World.inv_run seed env actions) (ih hbefore) a hlast.1

/-- **After `bloom_maintenance` the filter in the book for the peer of a link is the last one
that was written to that link.** -/
theorem filters_told {seed : Key} {env : Env} {actions : List Action}
    (h : (World.init seed env).Along World.Advertises (actions ++ [.maintain])) {v v' : World}
    {res : Except Exit Unit}
    (hbefore : announcing ((World.init seed env).run actions) = (.ok (), v))
    (hcall : bloomMaintenance v = (res, v')) {peer : Key} {id : LinkId}
    (hlive : id ∈ v'.links.linksTo peer) :
    ∃ b bytes, v'.router.bloom.send.lookup peer = some b ∧ b.encode = .ok bytes ∧
      v'.lastFilter id = some bytes := by
  obtain ⟨hrun, hlast⟩ := World.along_append.mp h
  have hinv := World.inv_run seed env actions
  have hv : v.Told := by
    have htold := announcing_told hinv (told_run hrun)
    rwa [hbefore] at htold
  have hinv₁ : Inv .free v :=
    hinv.of_allows (announcing_allows trivial trivial trivial trivial trivial) hbefore
  obtain ⟨hwhole, hkeeps⟩ := hlast.1 v hbefore
  have hsteady := bloomMaintenance_steadfast ⟨hv, hwhole, hinv₁.nodup⟩ hkeeps
  rw [hcall] at hsteady
  obtain ⟨b, hsend, hfilter⟩ := hsteady.told _ (LinkSet.mem_linksTo.mp hlive)
  exact ⟨b, b.bytes, hsend, b.encode_eq, hfilter⟩

end

/-! ## A peer that leaves the tree -/

section

attribute [local instance] Sample.lenient

/-- The node with key 20 below a parent. -/
def childAnnounce (parent : UInt8) (seq : UInt64) : Announce where
  key := smallKey 20
  parent := smallKey parent
  res := SigRes.seal ⟨seq, 0⟩ 1 (smallKey 20) (smallKey parent) (smallKey parent)
  sig := Crypto.sign (smallKey 20) []

/-- The node with key 9 becomes a root, and its neighbour a child of it. -/
def adopting : List Action :=
  [.connect (smallKey 20) 0 true, .maintain, .frame 0 .announce (childAnnounce 9 1).encode]

/-- The child is told a filter and takes another parent. -/
def leaving : List Action :=
  adopting ++ [.maintain, .frame 0 .announce (childAnnounce 7 2).encode]

/-- The world in which the next `maintain` comes to the filters, and the one in which it is
through with them. -/
def atFilters (actions : List Action) : World :=
  (announcing ((World.init (smallKey 9) (.even 1)).run actions)).2

def pastFilters (actions : List Action) : World := (bloomMaintenance (atFilters actions)).2

theorem announcing_eq {actions : List Action}
    (h : (announcing ((World.init (smallKey 9) (.even 1)).run actions)).1 = .ok ()) :
    announcing ((World.init (smallKey 9) (.even 1)).run actions) =
      (.ok (), atFilters actions) := Prod.ext h rfl

theorem bloomMaintenance_eq (actions : List Action) :
    bloomMaintenance (atFilters actions) =
      ((bloomMaintenance (atFilters actions)).1, pastFilters actions) := rfl

theorem leaving_facts :
    (announcing ((World.init (smallKey 9) (.even 1)).run leaving)).1 = .ok () ∧
      (bloomMaintenance (atFilters leaving)).1 = .ok () ∧
      (pastFilters leaving).links.linksTo (smallKey 20) = [0] ∧
      (pastFilters leaving).router.bloom.send.lookup (smallKey 20) = some .empty ∧
      (pastFilters leaving).lastFilter 0 ≠ some BloomFilter.empty.bytes := by
  decide +kernel

/-- The book has a blank filter for the child that left. The last one it was sent is another. -/
theorem not_told_leaving :
    announcing ((World.init (smallKey 9) (.even 1)).run leaving) =
        (.ok (), atFilters leaving) ∧
      bloomMaintenance (atFilters leaving) = (.ok (), pastFilters leaving) ∧
      0 ∈ (pastFilters leaving).links.linksTo (smallKey 20) ∧
      ¬ ∃ b bytes, (pastFilters leaving).router.bloom.send.lookup (smallKey 20) = some b ∧
        b.encode = .ok bytes ∧ (pastFilters leaving).lastFilter 0 = some bytes := by
  obtain ⟨hannounced, hdone, hlinks, hsend, hlast⟩ := leaving_facts
  have hlive : 0 ∈ (pastFilters leaving).links.linksTo (smallKey 20) := by
    rw [hlinks]
    exact List.mem_singleton.mpr rfl
  have hcall := bloomMaintenance_eq leaving
  rw [hdone] at hcall
  refine ⟨announcing_eq hannounced, hcall, hlive, ?_⟩
  rintro ⟨b, bytes, hsend', hencode, hlast'⟩
  obtain rfl : BloomFilter.empty = b := Option.some.inj (hsend.symm.trans hsend')
  rw [BloomFilter.encode_eq, Except.ok.injEq] at hencode
  exact hlast (hencode ▸ hlast')

theorem advertises_of_off {actions : List Action}
    (hentries : (atFilters actions).links.entries = [⟨0, smallKey 20⟩])
    (hoff : (atFilters actions).router.bloom.onTree.lookup (smallKey 20) = some false) :
    ((World.init (smallKey 9) (.even 1)).run actions).Advertises .maintain := by
  intro v hv
  obtain rfl : atFilters actions = v := congrArg Prod.snd hv
  refine ⟨.inl fun peer => ?_, fun i _ e he htrue => ?_⟩
  · rw [LinkSet.linksTo, hentries, List.length_map]
    exact List.length_filter_le _ _
  · rw [hentries] at he
    rw [List.mem_singleton.mp he] at htrue
    cases hoff.symm.trans htrue

theorem along_adopting {w : World}
    (hfirst : (w.run [.connect (smallKey 20) 0 true]).Advertises .maintain)
    (hsecond : (w.run adopting).Advertises .maintain) :
    w.Along World.Advertises (adopting ++ [.maintain]) :=
  World.along_append.mpr ⟨⟨trivial, hfirst, trivial, trivial⟩, hsecond, trivial⟩

theorem adopting_facts :
    (atFilters [.connect (smallKey 20) 0 true]).links.entries = [⟨0, smallKey 20⟩] ∧
      (atFilters [.connect (smallKey 20) 0 true]).router.bloom.onTree.lookup
        (smallKey 20) = some false ∧
      (announcing ((World.init (smallKey 9) (.even 1)).run adopting)).1 = .ok () ∧
      (atFilters adopting).links.entries = [⟨0, smallKey 20⟩] ∧
      (atFilters adopting).router.bloom.onTree.lookup (smallKey 20) = some false ∧
      (pastFilters adopting).links.linksTo (smallKey 20) = [0] ∧
      (pastFilters adopting).router.bloom.onTree.lookup (smallKey 20) = some true := by
  decide +kernel

/-- A child that has just joined the tree gets the filter that is in the book. -/
theorem filters_told_adopting :
    (World.init (smallKey 9) (.even 1)).Along World.Advertises (adopting ++ [.maintain]) ∧
      (pastFilters adopting).router.bloom.onTree.lookup (smallKey 20) = some true ∧
      ∃ b bytes, (pastFilters adopting).router.bloom.send.lookup (smallKey 20) = some b ∧
        b.encode = .ok bytes ∧ (pastFilters adopting).lastFilter 0 = some bytes := by
  obtain ⟨hentries₀, hoff₀, hannounced, hentries, hoff, hlinks, hon⟩ := adopting_facts
  have halong := along_adopting (advertises_of_off hentries₀ hoff₀) (advertises_of_off hentries hoff)
  have hlive : 0 ∈ (pastFilters adopting).links.linksTo (smallKey 20) := by
    rw [hlinks]
    exact List.mem_singleton.mpr rfl
  exact ⟨halong, hon,
    filters_told halong (announcing_eq hannounced) (bloomMaintenance_eq adopting) hlive⟩

end

end Roots
