import Roots.Router.Step

/-!
# Roots.Router.Rules.Tree

**Every method of the router is a sequence of steps** (`Step`), from every state in
which the invariant holds, and none of them aborts as long as the keys it encrypts to
are curve points. There is one lemma for each method, proved along its text: here for
the tree, the bloom table and the forwarding of packets, in `Roots.Router.Rules.Net`
for sessions and paths, in `Roots.Router.Rules.Driver` for the driver.
-/

namespace Roots

open Prog RouterM Wire

variable [Crypto]

/-- The local key sequence of a session has no successor. -/
def World.Worn (w : World) : Prop :=
  ∃ k s t, w.router.sess.sessions.lookup k = some (s, t) ∧ s.localKeySeq + 1 = 0

instance (w : World) : Decidable w.Worn :=
  decidable_of_iff
    ((w.router.sess.sessions.toList.any fun x => x.2.1.localKeySeq + 1 = 0) = true) <| by
      simp only [List.any_eq_true, decide_eq_true_eq, Prod.exists, Assoc.mem_toList, World.Worn]

/-- Rules under which the steps are the moves. -/
def stepping (S : Scope) (bad : Exit → World → Prop) : Rules World Exit where
  step := Step S
  inv := Inv S
  bad := bad
  keeps := Inv.step

/-- The rules of the router. With `strict`, an abort and an exhausted recursion are bad
ends, but for the abort of a session that has counted to the end. -/
def rules (S : Scope) (strict : Prop) : Rules World Exit :=
  stepping S fun e w => strict ∧ e.isLink = false ∧ (e = .panic → ¬ w.Worn)

/-- A frame of the type may be taken and recorded under the rules. -/
def Records (R : Rules World Exit) (ftype : FrameType) : Prop :=
  ∀ w id payload, R.inv w → R.step w { w with events := w.events ++ [.wrote id ftype payload] }

/-- Rules under which the surroundings may be read and frames other than filters and lookups
may be written: a frame is taken and recorded, or its link is retired, and that a link is gone
is no bad end. -/
class Writes (R : Rules World Exit) : Prop where
  tick : ∀ w, R.inv w → R.step w { w with tick := w.tick + 1 }
  wrote : ∀ {ftype}, ftype ≠ .bloomFilter → ftype ≠ .pathLookup → Records R ftype
  stamp : ∀ w m, R.inv w → R.step w { w with links.lastWrite := m }
  retire : ∀ w id, (∃ n, w.env.writes n = false) → R.inv w →
    R.step w { w with links := w.links.remove id }
  not_bad : ∀ e, e.isLink = true → ∀ w, ¬ R.bad (.err e) w
  /-- An `Err` is bad wherever it is returned. -/
  steady : ∀ e w w', R.bad (.err e) w → R.bad (.err e) w'

variable {S : Scope} {strict : Prop}

/-- One event is recorded. -/
theorem Step.note {w : World} (e : Event) (hplain : e.plain = true) (h : S.allows e)
    (hfilter : e.isFilter = true → S.filters) : Step S w { w with events := w.events ++ [e] } :=
  .notes [e] fun e' he' => by
    rw [List.mem_singleton.mp he']
    exact ⟨hplain, h, hfilter⟩

theorem records_filters (hfilters : S.filters) (ftype : FrameType) :
    Records (rules S strict) ftype := fun _ id payload _ =>
  .note (.wrote id ftype payload) rfl trivial fun _ => hfilters

theorem records_stepping {bad : Exit → World → Prop} {ftype : FrameType}
    (hne : ftype ≠ .bloomFilter) : Records (stepping S bad) ftype := fun _ id payload _ => by
  refine .note (.wrote id ftype payload) rfl trivial fun hfilter => absurd ?_ hne
  cases ftype with
  | bloomFilter => rfl
  | _ => cases hfilter

theorem writes_stepping {bad : Exit → World → Prop}
    (hnot : ∀ e, e.isLink = true → ∀ w, ¬ bad (.err e) w)
    (hsteady : ∀ e w w', bad (.err e) w → bad (.err e) w') : Writes (stepping S bad) where
  tick _ _ := .tick
  wrote hne _ := records_stepping hne
  stamp _ m _ := .stamp m
  retire _ id hrefused _ := .retire id hrefused
  not_bad := hnot
  steady := hsteady

instance : Writes (rules S strict) :=
  writes_stepping
    (fun e hlink w hbad => by
      have hnot : e.isLink = false := hbad.2.1
      rw [hlink] at hnot
      cases hnot)
    fun _ _ _ hbad => ⟨hbad.1, hbad.2.1, nofun⟩

/-! ## Primitives -/

section Primitives

variable {R : Rules World Exit} [Writes R] {α β : Type}

theorem draw_allows (f : Env → Nat → α) : R.Allows (draw f) :=
  fun w hw => ⟨.single (Writes.tick w hw), fun _ h => by cases h⟩

theorem draw_bind_obeys {f : Env → Nat → α} {g : α → RouterM β} {w : World}
    (h : Obeys R (g (f w.env w.tick)) { w with tick := w.tick + 1 }) : Obeys R (draw f >>= g) w :=
  .bind (draw_allows f w) fun _ _ heq => by cases heq; exact h

theorem fail_allows {e : Error} (hlink : e.isLink = true) : R.Allows (fail e : RouterM α) :=
  .exit (Writes.not_bad e hlink)

/-- An `Err` that is handed on. -/
theorem refail_allows {e : Error} {w : World} (h : ¬ R.bad (.err e) w) :
    R.Allows (fail e : RouterM α) :=
  .exit fun w' hbad => h (Writes.steady e w' w hbad)

omit [Writes R] in
theorem lift_allows (a : α) : R.Allows (lift (.ok a)) :=
  fun _ _ => ⟨.refl, fun _ he => by cases he⟩

omit [Writes R] in
theorem ifOk_allows {r : Except Exit α} (h : Refuses r) : R.Allows (ifOk r) := by
  unfold ifOk
  split
  · exact .pure _
  · exact .pure _
  · rename_i e hne
    cases h e rfl
    exact absurd rfl (hne _)

omit [Writes R] in
/-- A sum that does not fit must not be a bad end. -/
theorem checked_bind_obeys {x : Option α} {f : α → RouterM β} {w : World}
    (hsome : ∀ a, x = some a → Obeys R (f a) w)
    (hnone : x = none → R.inv w → ¬ R.bad .panic w) : Obeys R (checked x >>= f) w := by
  cases x with
  | some a => exact hsome a rfl
  | none => exact .bind (.exit (hnone rfl)) fun _ _ h => nomatch h

omit [Writes R] in
/-- What `result` hands on is a value or an `Err`. -/
theorem result_bind_obeys {m : RouterM α} {f : Except Exit α → RouterM β} {w : World}
    (hm : Obeys R m w) (hok : ∀ a w', m w = (.ok a, w') → Obeys R (f (.ok a)) w')
    (herr : ∀ e w', ¬ R.bad (.err e) w' → m w = (.error (.err e), w') →
      Obeys R (f (.error (.err e))) w') :
    Obeys R (result m >>= f) w := by
  refine .of_inv fun hw => .bind (.attempt hm) fun r w' hr => ?_
  unfold result attempt at hr
  obtain ⟨r₀, hrun⟩ : ∃ r₀, m w = r₀ := ⟨_, rfl⟩
  rw [hrun] at hr
  obtain ⟨e | a, w''⟩ := r₀
  · cases e with
    | err e =>
      obtain ⟨rfl, rfl⟩ : Except.error (.err e) = r ∧ w'' = w' := by simpa using hr
      refine herr e w'' ?_ hrun
      have hnot := hm.not_bad hw (congrArg Prod.fst hrun)
      rwa [hrun] at hnot
    | panic => simp at hr
    | stuck => simp at hr
  · cases hr
    exact hok a w' hrun

end Primitives

/-! ## Writing frames -/

section Writing

variable {R : Rules World Exit} [Writes R] {ftype : FrameType} (hrec : Records R ftype)

include hrec

theorem writeFrame_allows (id : LinkId) (payload : Bytes) :
    R.Allows (writeFrame id ftype payload) := by
  refine .bind (draw_allows _) fun taken => .ite ?_ (.pure _)
  exact .bind (.modify fun w hw => hrec w id payload hw) fun _ => .pure _

omit hrec in
/-- A socket that does not take a frame refused it. -/
theorem writeFrame_refused {id : LinkId} {payload : Bytes} {w w' : World}
    (h : writeFrame id ftype payload w = (.ok false, w')) : ∃ n, w'.env.writes n = false := by
  rw [writeFrame, draw_bind] at h
  split at h
  · cases h
  · rename_i hrefused
    cases h
    exact ⟨w.tick, Bool.eq_false_iff.mpr hrefused⟩

theorem send_allows (target : LinkId) (payload : Bytes) :
    R.Allows (send target ftype payload) := by
  refine .gets_bind fun ls => .ite (.pure _) fun w => ?_
  refine .bind (writeFrame_allows hrec _ _ w) fun taken w' htaken => .ite (fun _ => ?_) fun hnot => ?_
  · refine draw_bind_obeys ?_
    exact .modify_bind (fun hw => Writes.stamp _ _ hw) (.pure _)
  · rw [Bool.eq_false_iff.mpr hnot] at htaken
    exact .modify_bind (fun hw => Writes.retire _ target (writeFrame_refused htaken) hw)
      (fail_allows rfl _)

theorem write_allows (target : LinkId) (payload : Bytes) :
    R.Allows (write target ftype payload) :=
  .bind (send_allows hrec _ _) fun _ => .ite (.pure _) (fail_allows rfl)

theorem writeAll_allows (peer : Key) (payload : Bytes) :
    R.Allows (writeAll peer ftype payload) :=
  .gets_bind fun _ => .ite (fail_allows rfl) (.forEach fun _ _ => write_allows hrec _ _)

theorem writeVia_allows (next : LinkId) (payload : Bytes) :
    R.Allows (writeVia next ftype payload) :=
  .gets_bind fun _ => .ite (.pure _) (.bind (send_allows hrec _ _) fun _ => .pure _)

omit hrec in
theorem keepaliveIfIdle_allows (conn : LinkId) : R.Allows (keepaliveIfIdle conn) :=
  .gets_bind fun _ => .bind (draw_allows _) fun _ =>
    .ite (write_allows (Writes.wrote (by decide) (by decide)) _ _) (.pure _)

omit hrec in
/-- A notify is sent on or accepted. -/
theorem handleNotify_allows {netSend : NetSend} {notify : PathNotify}
    (haccept : R.Allows (acceptNotify netSend notify)) :
    R.Allows (handleNotify netSend notify) := by
  refine .gets_bind fun ⟨next, watermark⟩ => ?_
  cases next with
  | some id => exact writeVia_allows (Writes.wrote (by decide) (by decide)) _ _
  | none => exact .gets_bind fun _ => .ite (.pure _) haccept

omit hrec in
/-- A report is sent on or believed. -/
theorem handleReport_allows {netSend : NetSend} {broken : PathBroken}
    (hmark : R.Allows (markBroken netSend broken.dest)) :
    R.Allows (handleBroken netSend broken) := by
  refine .gets_bind fun ⟨next, watermark⟩ => ?_
  cases next with
  | some id => exact writeVia_allows (Writes.wrote (by decide) (by decide)) _ _
  | none => exact .gets_bind fun _ => .ite (.pure _) hmark

end Writing

/-! ## The tree -/

theorem newReq_allows : (rules S strict).Allows newReq :=
  .gets_bind fun _ => .bind (draw_allows _) fun _ => .pure _

theorem modifyLinks_allows (ids : List LinkId) {f : LinkState → LinkState}
    (hf : ∀ l, (f l).peer = l.peer) (hstamps : S.stamps ∨ ∀ l, (f l).sentAt = l.sentAt) :
    (rules S strict).Allows (modifyLinks ids f) :=
  .modify fun _ _ => .linkStates _ (fun _ => Assoc.map_lookup_foldl_modify hf)
    (hstamps.imp_right fun hsent _ => Assoc.map_lookup_foldl_modify hsent)

theorem sendReq_allows (hstamps : S.stamps) (peerKey : Key) :
    (rules S strict).Allows (sendReq peerKey) := by
  refine .bind newReq_allows fun req => ?_
  refine .bind (.modify fun w _ => .peers _ (fun _ => Assoc.mem_modify.mpr)
    (.inr fun k => Assoc.map_lookup_modify (by exact fun _ => rfl))) fun _ => ?_
  refine .gets_bind fun ls =>
    .bind (modifyLinks_allows _ (by exact fun _ => rfl) (.inl hstamps)) fun _ => ?_
  refine fun w => result_bind_obeys
    (writeAll_allows (Writes.wrote (by decide) (by decide)) _ _ w) (fun _ w' _ => ?_)
    fun _ w' hnot _ => refail_allows hnot w'
  exact (Rules.Allows.bind (draw_allows _) fun _ =>
    modifyLinks_allows _ (by exact fun _ => rfl) (.inl hstamps)) w'

theorem handleRequest_allows (conn : LinkId) (peerKey : Key) (req : SigReq) :
    (rules S strict).Allows (handleRequest conn peerKey req) :=
  .gets_bind fun _ => write_allows (Writes.wrote (by decide) (by decide)) _ _

/-- The answer was checked against this node's key, and that key does not change. -/
theorem handleResponse_allows (hgrows : S.grows) (conn : LinkId) (peerKey : Key) (res : SigRes) :
    (rules S strict).Allows (handleResponse conn peerKey res) := by
  intro w
  refine .gets_bind (.ite (fun _ => .pure _) fun hcheck => ?_)
  refine draw_bind_obeys (draw_bind_obeys ?_)
  refine .modify_bind (fun _ => .linkStates _
    (fun id => Assoc.map_lookup_foldl_modify (by exact fun _ => rfl))
    (.inr fun id => Assoc.map_lookup_foldl_modify (by exact fun _ => rfl))) ?_
  refine .ite (fun _ => .pure _) fun _ => .modify_bind (fun _ => .responses hgrows _ ?_) ?_
  · intro k res' hlookup
    rw [Assoc.lookup_orInsert] at hlookup
    split at hlookup
    · rename_i heq
      subst heq
      cases hres : w.router.tree.responses.lookup k with
      | some res₀ =>
        simp only [hres, Option.getD_some] at hlookup
        exact .inl hlookup
      | none =>
        simp only [hres, Option.getD_none, Option.some.injEq] at hlookup
        subst hlookup
        exact .inr (by simpa using hcheck)
    · exact .inl hlookup
  · split
    · exact .pure _
    · exact modifyLinks_allows _ (by intro l; split <;> rfl) (.inr (by intro l; split <;> rfl)) _

theorem updateTree_obeys (hadopt : S.adopts) {ann : Announce} {w : World}
    (hcheck : ann.check = true ∨ ∃ req, ann = rootAnnounce w.router req) :
    Obeys (rules S strict) (updateTree ann) w := by
  refine .gets_bind (draw_bind_obeys ?_)
  unfold TreeState.update
  split
  · rename_i hadopts
    exact .modify_bind (fun _ => .adopt hadopt ann _ hcheck hadopts) (.pure _)
  · exact .bind (.modify_same rfl) fun _ _ _ => .pure _

theorem useResponse_allows (hadopt : S.adopts) (peerKey : Key) (res : SigRes) :
    (rules S strict).Allows (useResponse peerKey res) :=
  fun _ => .gets_bind (.ite (fun h => updateTree_obeys hadopt (.inl h)) fun _ => .pure _)

theorem becomeRoot_allows (hgrows : S.grows) (hadopt : S.adopts) :
    (rules S strict).Allows becomeRoot := by
  refine .bind newReq_allows fun req => ?_
  refine fun w => .gets_bind (.bind (updateTree_obeys hadopt (.inr ⟨req, rfl⟩)) fun _ w' _ => ?_)
  exact draw_bind_obeys (.modify fun _ => .selfRefresh hgrows _)

theorem sendAllReqs_allows (hgrows : S.grows) (hstamps : S.stamps) :
    (rules S strict).Allows sendAllReqs := by
  refine .bind (.modify fun w _ => .responses hgrows ∅ fun k res h => ?_) fun _ => ?_
  · cases h
  · exact .gets_bind fun _ => .forEach fun k _ => sendReq_allows hstamps k

theorem settle_allows (hgrows : S.grows) (hstamps : S.stamps) : (rules S strict).Allows settle :=
  .bind (.modify fun _ _ => .flags hgrows _ _ _) fun _ => sendAllReqs_allows hgrows hstamps

theorem rootOrWait_allows (hgrows : S.grows) (hadopt : S.adopts) (hstamps : S.stamps) :
    (rules S strict).Allows rootOrWait := by
  refine .gets_bind fun r => .ite ?_ (.ite ?_ (.pure _))
  · exact .bind (becomeRoot_allows hgrows hadopt) fun _ => settle_allows hgrows hstamps
  · exact .modify fun w _ => .flags hgrows w.router.tree.refresh true w.router.tree.doRoot2

theorem fix_allows (hgrows : S.grows) (hadopt : S.adopts) (hstamps : S.stamps) :
    (rules S strict).Allows fix := by
  refine .gets_bind fun r => .gets_bind fun ls => .ite ?_ (.pure _)
  split
  · refine .ite ?_ (rootOrWait_allows hgrows hadopt hstamps)
    refine .bind (useResponse_allows hadopt _ _) fun _ => ?_
    exact .ite (settle_allows hgrows hstamps) (rootOrWait_allows hgrows hadopt hstamps)
  · exact rootOrWait_allows hgrows hadopt hstamps

theorem expireTree_allows (hages : S.ages) : (rules S strict).Allows expireTree :=
  .bind (draw_allows _) fun t => .modify fun _ _ => .expire hages t

theorem sendAnnounce_allows (peerKey k : Key) :
    (rules S strict).Allows (sendAnnounce peerKey k) := by
  refine .gets_bind fun r => ?_
  split
  · exact .pure _
  · exact .gets_bind fun _ => .ite (writeAll_allows (Writes.wrote (by decide) (by decide)) _ _) (.pure _)

/-- The same context with the infos as they are. -/
def Scope.steady (S : Scope) : Scope := { S with adopts := False, ages := False }

/-- What the steps of such a context do: the infos stay, and no peer is forgotten. -/
structure Steady (w w' : World) : Prop where
  infos : w'.router.tree.infos = w.router.tree.infos
  peers : ∀ k ∈ w.router.tree.peers, k ∈ w'.router.tree.peers

theorem Steady.refl (w : World) : Steady w w := ⟨rfl, fun _ h => h⟩

theorem Steady.trans {w w' w'' : World} (h : Steady w w') (h' : Steady w' w'') : Steady w w'' :=
  ⟨h'.infos.trans h.infos, fun k hk => h'.peers k (h.peers k hk)⟩

theorem Step.steady {w w' : World} (h : Step S.steady w w') : Steady w w' := by
  cases h with
  | adopt h | expire h => exact h.elim
  | peers m hm => exact ⟨rfl, hm⟩
  | _ => exact { Steady.refl w with }

theorem Steady.of_allows {α : Type} {m : RouterM α} (hm : (rules S.steady False).Allows m)
    {w : World} (hw : Inv S w) : Steady w (m w).2 := by
  have hwalk := (hm w).walk ({ hw with } : Inv S.steady w)
  generalize (m w).2 = w' at hwalk
  induction hwalk with
  | refl => exact .refl w
  | tail _ hstep ih => exact ih.trans hstep.steady

omit [Crypto] in
/-- A key is marked for a peer. -/
theorem sent_insert {sent : Assoc Key (List Key)} {infos : Assoc Key Info} {peer : Key}
    {keys : List Key} (h : ∀ k ∈ keys, k ∈ (sent.lookup peer).getD [] ∨ k ∈ infos) :
    ∀ p l k, (sent.insert peer keys).lookup p = some l → k ∈ l →
      (∃ l₀, sent.lookup p = some l₀ ∧ k ∈ l₀) ∨ k ∈ infos := by
  intro p l k hlookup hk
  rw [Assoc.lookup_insert_ite] at hlookup
  split at hlookup
  · rename_i hp
    cases hlookup
    subst hp
    refine (h k hk).imp_left fun hold => ?_
    cases hl : sent.lookup p with
    | none => simp [hl] at hold
    | some l₀ => exact ⟨l₀, rfl, by simpa [hl] using hold⟩
  · exact .inl ⟨l, hlookup, hk⟩

omit [Crypto] in
theorem mem_sent_insert {sent : Assoc Key (List Key)} {peers : Assoc Key PeerState} {peer : Key}
    (hpeer : peer ∈ peers) {keys : List Key} :
    ∀ p ∈ sent.insert peer keys, p ∈ sent ∨ p ∈ peers := fun _ hp =>
  ((AList.mem_insert _).mp hp).elim (fun h => .inr (h ▸ hpeer)) .inl

/-- The walks of `send_announces` only meet keys with an info, and nothing is adopted or
dropped between them. -/
theorem sendAnnounces_allows (hmarks : S.marks) : (rules S strict).Allows sendAnnounces := by
  refine fun w => .of_inv fun hw => .gets_bind ?_
  refine .forEach (I := Steady w) (fun peerKey hpeer w' hw' hsteady => ?_) (.refl w)
  have hknown := hsteady.peers peerKey (hw.known _ (AList.mem_keys.mp (mem_sortKeys.mp hpeer)))
  let keys := unsent (TreeState.ancestry w.router.tree.infos w.router.pubkey ++
    TreeState.ancestry w'.router.tree.infos peerKey) ((w'.router.tree.sent.lookup peerKey).getD [])
  have hstep {S : Scope} (hmarks : S.marks) :
      Step S w' { w' with router.tree.sent := w'.router.tree.sent.insert peerKey keys.2 } := by
    refine .sent hmarks _ (sent_insert fun k hk => ?_) (mem_sent_insert hknown)
    rcases mem_unsent hk with hk | hk
    · rcases List.mem_append.mp hk with hk | hk
      · exact .inr (hsteady.infos ▸ TreeState.mem_infos_of_mem_ancestry hk)
      · exact .inr (TreeState.mem_infos_of_mem_ancestry hk)
    · exact .inl hk
  refine ⟨.gets_bind (.modify_bind (fun _ => hstep hmarks) ?_), ?_⟩
  · exact Rules.Allows.forEach (fun k _ => sendAnnounce_allows _ _) _
  · have hmarked : Steady w' { w' with
        router.tree.sent := w'.router.tree.sent.insert peerKey keys.2 } := { Steady.refl w' with }
    refine (hsteady.trans hmarked).trans ?_
    exact .of_allows (.forEach fun k _ => sendAnnounce_allows _ _) (hw'.step (hstep hmarks))

/-- An announce that was looked at has an info for its key. -/
theorem updateTree_mem {ann : Announce} {w w' : World} {adopted : Bool}
    (h : updateTree ann w = (.ok adopted, w')) : ann.key ∈ w'.router.tree.infos := by
  cases (updateTree_run ann w).symm.trans h
  rw [TreeState.infos_update]
  split
  · exact (AList.mem_insert _).mpr (.inl rfl)
  · rename_i hadopts
    cases hinfo : w.router.tree.infos.lookup ann.key with
    | none => simp [TreeState.adopts, hinfo] at hadopts
    | some info => exact Assoc.mem_iff_lookup.mpr ⟨info, hinfo⟩

theorem handleAnnounce_obeys (hgrows : S.grows) (hadopt : S.adopts) (hmarks : S.marks)
    {w : World} {src : Key} (hsrc : src ∈ w.router.tree.peers) {ann : Announce}
    (hcheck : ann.check = true) : Obeys (rules S strict) (handleAnnounce src ann) w := by
  refine .gets_bind ?_
  refine .bind (updateTree_obeys hadopt (.inl hcheck)) fun adopted w' hupdate => ?_
  have hmark : ∀ k ∈ ((w'.router.tree.sent.lookup src).getD []).insert ann.key,
      k ∈ (w'.router.tree.sent.lookup src).getD [] ∨ k ∈ w'.router.tree.infos := fun k hk =>
    (List.mem_insert_iff.mp hk).elim (fun h => .inr (h ▸ updateTree_mem hupdate)) .inl
  have hknown : src ∈ w'.router.tree.peers := by
    cases (updateTree_run ann w).symm.trans hupdate
    simpa using hsrc
  refine .ite (fun _ => .modify_bind (fun _ => ?_) ?_) fun _ => ?_
  · exact .flags hgrows true w'.router.tree.doRoot1 w'.router.tree.doRoot2
  all_goals
    refine .modify_bind
      (fun _ => .sent hmarks _ (sent_insert hmark) (mem_sent_insert hknown)) ?_
    refine .ite (fun _ => .pure _) fun _ => ?_
    split
    · exact .ite (fun _ => .pure _) fun _ => .pure _
    · exact .pure _

/-! ## The bloom table -/

theorem bloomAddPeer_allows (hfilters : S.filters) (peer : Key) :
    (rules S strict).Allows (bloomAddPeer peer) :=
  .modify fun _ _ => .bloom hfilters _

theorem advertise_allows (hfilters : S.filters) (pk : Key) :
    (rules S strict).Allows (advertise pk) := by
  refine .gets_bind fun r =>
    .ite (.pure _) (.bind (.modify fun _ _ => .bloom hfilters _) fun _ => ?_)
  rw [BloomFilter.encode_eq]
  refine .bind (lift_allows _) fun bytes => .gets_bind fun ls => .ite (.pure _) ?_
  exact writeAll_allows (records_filters hfilters _) _ _

theorem bloomMaintenance_allows (hfilters : S.filters) :
    (rules S strict).Allows bloomMaintenance :=
  .bind (.modify fun _ _ => .bloom hfilters _) fun _ => .gets_bind fun _ =>
    .bind (draw_allows _) fun _ => .forEach fun k _ => advertise_allows hfilters k

theorem bloomHandle_allows (src : Key) (payload : Bytes) :
    (rules S strict).Allows (bloomHandle src payload) := by
  refine .bind (ifOk_allows (BloomFilter.decodeExact_refuses payload)) fun b => ?_
  split
  · exact .pure _
  · exact .modify fun _ _ => .recv _

omit [Crypto] in
theorem linkStates_ok (t : TreeState) (ids : List LinkId) (h : ∀ id ∈ ids, id ∈ t.links) :
    ∃ states, linkStates t ids = .ok states := by
  induction ids with
  | nil => exact ⟨[], rfl⟩
  | cons id ids ih =>
    obtain ⟨l, hl⟩ := Assoc.mem_iff_lookup.mp (h id (List.mem_cons_self ..))
    obtain ⟨rest, hrest⟩ := ih fun i hi => h i (List.mem_cons_of_mem _ hi)
    exact ⟨(id, l) :: rest, by simp only [linkStates, hl, hrest]; rfl⟩

section Flood

variable {R : Rules World Exit} [Writes R]
  (hlinked : ∀ {w id}, R.inv w → id ∈ w.links.ids → id ∈ w.router.tree.links)

include hlinked

omit [Writes R] in
/-- The links of the set are in the tree's books, so `best_link` finds their states. -/
theorem bestLink_allows (key : Key) : R.Allows (bestLink key) := by
  refine fun w => .of_inv fun hw => .gets_bind (.gets_bind ?_)
  obtain ⟨states, hstates⟩ := linkStates_ok w.router.tree (w.links.linksTo key) fun id hid =>
    hlinked hw (LinkSet.mem_ids_of_mem_linksTo hid)
  rw [hstates]
  refine .bind (lift_allows _ w) fun a w' _ => ?_
  split <;> exact .pure _

theorem multicastTo_allows {ftype : FrameType} (hrec : Records R ftype) (srcKey x : Key)
    (payload : Bytes) (k : Key) : R.Allows (multicastTo srcKey x ftype payload k) := by
  refine .gets_bind fun r => .ite (.pure _) (.bind (bestLink_allows hlinked k) fun best => ?_)
  split
  · exact .pure _
  · exact writeVia_allows hrec _ _

theorem multicast_allows {ftype : FrameType} (hrec : Records R ftype) (srcKey toKey : Key)
    (payload : Bytes) : R.Allows (multicast srcKey toKey ftype payload) :=
  .gets_bind fun _ => .forEach fun k _ => multicastTo_allows hlinked hrec _ _ _ k

end Flood

end Roots
