import Mathlib.Data.List.TakeWhile
import Roots.Lib.Visits
import Roots.Router.Books
import Roots.Router.Requests

/-!
# Roots.Router.Lag

The lag of a link. `handle_response` takes the clock and subtracts the time the link carries
(`sent_at`), which **should be the time its latest request was written**. It need not be.
`register` writes a request and lets the link carry the epoch. `send_req` notes the time only
after it has written to all links of the peer, the same for each of them, and not at all if one
of them refuses: the others carry the time of an earlier request, or the epoch.

The history of a run has both, the times at which requests were written and those that were
noted (`World.sendings`), and `lag_measured_iff` says exactly when the difference is the same.
-/

namespace Roots

open Prog RouterM
open Sample (smallKey)

/-! ## Histories -/

/-- What happens to the request on a link. -/
inductive Sending where
  /-- `register` makes the state of a link, with the epoch for the time of its request. -/
  | entered (id : LinkId)
  /-- The request is written. -/
  | sent (id : LinkId) (time : Instant)
  /-- `send_req` has written it on all links of a peer, and notes the time. -/
  | noted (ids : List LinkId) (time : Instant)

namespace Sending

/-- When a request was written on a link. -/
def written (id : LinkId) : Sending → Option Instant
  | sent id' time => if id' = id then some time else none
  | _ => none

/-- The time a link carries from now on. -/
def carried (id : LinkId) : Sending → Option Instant
  | entered id' => if id' = id then some 0 else none
  | noted ids time => if id ∈ ids then some time else none
  | sent .. => none

end Sending

/-- The latest time in a history. -/
def latest (f : Sending → Option Instant) (log : List Sending) : Option Instant :=
  (log.filterMap f).getLast?

section Latest

variable {f : Sending → Option Instant} {log ms : List Sending}

theorem latest_append : latest f (log ++ ms) = (latest f ms).or (latest f log) := by
  simp [latest, List.getLast?_append]

theorem latest_append_of_none (h : ∀ m ∈ ms, f m = none) : latest f (log ++ ms) = latest f log := by
  have hms : latest f ms = none := by
    rw [latest, List.filterMap_eq_nil_iff.mpr h]
    rfl
  rw [latest_append, hms, Option.none_or]

theorem latest_append_singleton (m : Sending) :
    latest f (log ++ [m]) = (f m).or (latest f log) := by
  rw [latest_append, latest]
  cases hm : f m <;> simp [hm]

theorem latest_isSome_append (h : (latest f log).isSome) : (latest f (log ++ ms)).isSome := by
  rw [latest_append]
  cases latest f ms with
  | none => exact h
  | some _ => rfl

end Latest

section

variable [Crypto] {w w' : World} {log : List Sending}

namespace World

/-- Every link of a peer takes a request. -/
def AllTake (w : World) (k : Key) : Prop :=
  w.links.linksTo k ≠ [] ∧ ∀ x ∈ w.links.turnsTo w.tick k, w.env.writes x.tick = true

instance (k : Key) : Decidable (w.AllTake k) := inferInstanceAs (Decidable (_ ∧ _))

/-- The writes of `send_req`, link by link, until one refuses. -/
def written (w : World) (k : Key) : List Sending :=
  ((w.links.turnsTo w.tick k).takeWhile fun x => w.env.writes x.tick).map fun x =>
    .sent x.link (w.env.now x.tick)

/-- What `send_req` does: the clock is read after all writes, if none was refused. -/
def requests (w : World) (k : Key) : List Sending :=
  if w.AllTake k then
    w.written k ++
      [.noted (w.links.linksTo k) (w.env.now (w.tick + 1 + 2 * (w.links.linksTo k).length))]
  else w.written k

/-- What `register` does: a new key has its request drawn, the filter goes out, and then the
request. -/
def registration (w : World) (k : Key) : List Sending :=
  let tick := if k ∈ w.router.tree.peers then w.tick else w.tick + 1
  .entered w.nextLink ::
    if w.env.writes tick ∧ w.env.writes (tick + 1) then
      [.sent w.nextLink (w.env.now (tick + 1))]
    else []

end World

/-! ## `fix` up to its requests -/

/-- `settle` without the requests. -/
def settled : RouterM Bool := do
  modifyTree fun t => { t with refresh := false, doRoot1 := false, doRoot2 := false }
  return true

/-- `root_or_wait` without the requests. -/
def rootedOrWaiting : RouterM Bool := do
  let r ← router
  if r.tree.doRoot2 then
    becomeRoot
    settled
  else if !r.tree.doRoot1 then
    modifyTree fun t => { t with doRoot1 := true }
    return false
  else return false

/-- `fix` without the requests, and whether it ends with them. -/
def fixed : RouterM Bool := do
  let r ← router
  let ls ← links
  let best := r.tree.select ls r.pubkey
  let curParent := (r.tree.infos.lookup r.pubkey).map Info.parent
  if r.tree.refresh || r.tree.doRoot1 || r.tree.doRoot2 || curParent ≠ some best.parent then
    match r.tree.responses.lookup best.parent with
    | some res =>
        if best.root ≠ r.pubkey then
          let used ← useResponse best.parent res
          if used then settled else rootedOrWaiting
        else rootedOrWaiting
    | none => rootedOrWaiting
  else return false

/-- The requests `fix` ends with. -/
def askIf (asks : Bool) : RouterM Unit := if asks then sendAllReqs else return ()

theorem settle_asks : settle = settled >>= askIf := rfl

theorem rootOrWait_asks : rootOrWait = rootedOrWaiting >>= askIf := by
  funext w
  rw [rootOrWait, rootedOrWaiting, bind_assoc, router, Prog.gets_bind, Prog.gets_bind]
  split
  · rw [bind_assoc, settle_asks]
  · split <;> rfl

theorem fix_asks : fix = fixed >>= askIf := by
  funext w
  rw [fix, fixed, bind_assoc, router, Prog.gets_bind, Prog.gets_bind, bind_assoc, links,
    Prog.gets_bind, Prog.gets_bind]
  dsimp only
  by_cases hdue : (w.router.tree.refresh || w.router.tree.doRoot1 || w.router.tree.doRoot2 ||
      (w.router.tree.infos.lookup w.router.pubkey).map Info.parent ≠
        some (w.router.tree.select w.links w.router.pubkey).parent) = true
  · rw [if_pos hdue, if_pos hdue]
    cases w.router.tree.responses.lookup (w.router.tree.select w.links w.router.pubkey).parent with
    | none => rw [rootOrWait_asks]
    | some res =>
      dsimp only
      by_cases hroot : (w.router.tree.select w.links w.router.pubkey).root ≠ w.router.pubkey
      · rw [if_pos hroot, if_pos hroot, bind_assoc]
        refine congrFun (congrArg (useResponse _ res >>= ·) (funext fun used => ?_)) w
        cases used
        · exact rootOrWait_asks
        · exact settle_asks
      · rw [if_neg hroot, if_neg hroot, rootOrWait_asks]
  · rw [if_neg hdue, if_neg hdue]
    rfl

/-! ## The history of a run -/

namespace World

/-- What `send_all_reqs` does, peer by peer, until a link refuses. -/
def asks (w : World) : List Sending :=
  visits (fun _ => true) sendReq (fun k w => w.requests k) (sortKeys w.links.peers)
    { w with router.tree.responses := ∅ }

/-- What an action does about requests. -/
def sends (w : World) : Action → List Sending
  | .connect peer _ _ => w.registration peer
  | .maintain => onward (fixed (expireTree w).2) fun asks w' => if asks then w'.asks else []
  | _ => []

/-- What a run does. -/
def sendings : World → List Action → List Sending
  | _, [] => []
  | w, a :: actions => w.sends a ++ (w.act a).sendings actions

end World

/-! ## What links carry -/

/-- Every link carries the time that the history says, and has been sent a request. -/
structure World.Logged (w : World) (log : List Sending) : Prop where
  stamps : ∀ id s, w.router.tree.stampAt id = some s →
    s.isSome ∧ s = latest (Sending.carried id) log
  sent : ∀ id ∈ w.links.ids, (latest (Sending.written id) log).isSome

theorem World.Logged.same (h : w.Logged log) (hsame : SameStamps w w') : w'.Logged log where
  stamps id s hs := h.stamps id s (hsame.stamps id ▸ hs)
  sent id hid := h.sent id (hsame.ids hid)

/-- Requests that are written change nothing about what links carry. -/
theorem World.Logged.write (h : w.Logged log) {ms : List Sending}
    (hms : ∀ m ∈ ms, ∀ id, m.carried id = none) : w.Logged (log ++ ms) where
  stamps id s hs := by
    rw [latest_append_of_none fun m hm => hms m hm id]
    exact h.stamps id s hs
  sent id hid := latest_isSome_append (h.sent id hid)

/-! ### Requests -/

theorem World.Logged.written (h : w.Logged log) (w' : World) (k : Key) :
    w.Logged (log ++ w'.written k) := by
  refine h.write fun m hm id => ?_
  obtain ⟨x, -, rfl⟩ := List.mem_map.mp hm
  rfl

/-- The end of `send_req`. -/
def noteTime (targets : List LinkId) : Except Exit Unit → RouterM Unit
  | .ok _ => do
      let t ← now
      modifyLinks targets fun l => { l with sentAt := some t }
  | .error e => exit e

/-- The books before the requests are written. -/
structure Opening (w w₁ : World) : Prop where
  links : w₁.links = w.links
  tick : w₁.tick = w.tick + 1
  env : w₁.env = w.env
  events : w₁.events = w.events
  stamps : ∀ id, w₁.router.tree.stampAt id = w.router.tree.stampAt id

theorem sendReq_run (k : Key) (w : World) : ∃ (req : SigReq) (w₁ : World), Opening w w₁ ∧
    sendReq k w =
      (result (writeAll k .sigReq req.encode) >>= noteTime (w.links.linksTo k)) w₁ := by
  obtain ⟨req, hreq⟩ : ∃ req, newReq w = (.ok req, { w with tick := w.tick + 1 }) := ⟨_, rfl⟩
  refine ⟨req, { w with
    tick := w.tick + 1
    router.tree.peers := w.router.tree.peers.modify k fun p => { p with req := req }
    router.tree.links := (w.links.linksTo k).foldl
      (fun m id => m.modify id fun l => { l with responded := false }) w.router.tree.links },
    ⟨rfl, rfl, rfl, rfl, fun id => Assoc.map_lookup_foldl_modify (by exact fun _ => rfl)⟩, ?_⟩
  rw [sendReq, run_bind_ok hreq]
  rfl

theorem allTake_of_fanned {w₁ v : World} {k : Key} {payload : Bytes} (hopen : Opening w w₁)
    (hlinked : w.links.linksTo k ≠ [])
    (hfan : Fanned (w.links.linksTo k) .sigReq payload w₁ v) : w.AllTake k := by
  refine ⟨hlinked, fun x hx => ?_⟩
  obtain ⟨j, hj, rfl⟩ := List.mem_mapIdx.mp hx
  have htaken := hfan.taken j hj
  rwa [hopen.env, hopen.tick] at htaken

theorem not_allTake_of_refused {w₁ v : World} {k : Key} {payload : Bytes} (hopen : Opening w w₁)
    {done rest : List LinkId} {id : LinkId} (hsplit : w.links.linksTo k = done ++ id :: rest)
    (hfan : Fanned done .sigReq payload w₁ v) (hrefused : v.env.writes v.tick = false) :
    ¬ w.AllTake k := by
  intro hall
  obtain ⟨before, after, hturns, -⟩ := LinkSet.turnsTo_split hsplit w.tick
  have htaken := hall.2 ⟨w.tick + 1 + 2 * done.length, k, id⟩ (by rw [hturns]; simp)
  rw [hfan.env, hfan.tick, hopen.env, hopen.tick] at hrefused
  exact Bool.noConfusion (htaken.symm.trans hrefused)

theorem writeAll_none {w₁ : World} {k : Key} (hopen : Opening w w₁)
    (hlinked : w.links.linksTo k = []) (payload : Bytes) :
    writeAll k .sigReq payload w₁ = (.error (.err .noLink), w₁) := by
  rw [writeAll, links, Prog.gets_bind, hopen.links, hlinked]
  rfl

/-- If a link refuses, the others carry what they carried. -/
theorem sendReq_refused {k : Key} (hnot : ¬ w.AllTake k) : SameStamps w (sendReq k w).2 := by
  obtain ⟨req, w₁, hopen, hrun⟩ := sendReq_run k w
  by_cases hlinked : w.links.linksTo k = []
  · rw [hrun, run_bind_ok (result_err (writeAll_none hopen hlinked _))]
    exact ⟨hopen.stamps, by rw [noteTime, run_exit, hopen.links]; exact List.Subset.refl _⟩
  · have hlinked₁ : w₁.links.linksTo k ≠ [] := by rwa [hopen.links]
    rcases writeAll_cases hlinked₁ .sigReq req.encode with
      ⟨v, hwrite, hfan⟩ | ⟨done, id, rest, v, hsplit, hfan, hrefused, hwrite⟩
    · rw [hopen.links] at hfan
      exact absurd (allTake_of_fanned hopen hlinked hfan) hnot
    · rw [hrun, run_bind_ok (result_err hwrite)]
      refine ⟨fun i => ?_, ?_⟩
      · show v.router.tree.stampAt i = _
        rw [hfan.router, hopen.stamps]
      · show (v.links.remove id).ids ⊆ _
        refine List.Subset.trans (v.links.ids_remove_subset id) ?_
        rw [hfan.ids_eq, hopen.links]
        exact List.Subset.refl _

/-- Otherwise they all carry the time that is noted. -/
theorem sendReq_noted {k : Key} (hall : w.AllTake k) :
    (sendReq k w).2.links.ids = w.links.ids ∧
      ∀ id, (sendReq k w).2.router.tree.stampAt id =
        if id ∈ w.links.linksTo k then
          (w.router.tree.stampAt id).map fun _ =>
            some (w.env.now (w.tick + 1 + 2 * (w.links.linksTo k).length))
        else w.router.tree.stampAt id := by
  obtain ⟨req, w₁, hopen, hrun⟩ := sendReq_run k w
  have hlinked₁ : w₁.links.linksTo k ≠ [] := by
    rw [hopen.links]
    exact hall.1
  rcases writeAll_cases hlinked₁ .sigReq req.encode with
    ⟨v, hwrite, hfan⟩ | ⟨done, id, rest, v, hsplit, hfan, hrefused, hwrite⟩
  · rw [hopen.links] at hfan
    have htime : v.env.now v.tick = w.env.now (w.tick + 1 + 2 * (w.links.linksTo k).length) := by
      rw [hfan.env, hfan.tick, hopen.env, hopen.tick]
    rw [hrun, run_bind_ok (result_ok hwrite)]
    refine ⟨?_, fun id => ?_⟩
    · show v.links.ids = _
      rw [hfan.ids_eq, hopen.links]
    · show ((List.foldl _ v.router.tree.links (w.links.linksTo k)).lookup id).map LinkState.sentAt = _
      have hbefore : v.router.tree.stampAt id = w.router.tree.stampAt id := by
        rw [hfan.router, hopen.stamps]
      split
      · rename_i hid
        rw [Assoc.map_lookup_foldl_modify_of_mem (by exact fun _ => rfl) hid, htime, ← hbefore,
          TreeState.stampAt, Option.map_map]
        rfl
      · rename_i hid
        rw [Assoc.lookup_foldl_modify_of_notMem hid]
        exact hbefore
  · rw [hopen.links] at hsplit
    exact absurd hall (not_allTake_of_refused hopen hsplit hfan hrefused)

/-- `send_req`: the links of the peer carry the time that is noted, if it comes to that. -/
theorem sendReq_logged (h : w.Logged log) (k : Key) :
    (sendReq k w).2.Logged (log ++ w.requests k) := by
  rw [World.requests]
  split
  · rename_i hall
    obtain ⟨hids, hstamps⟩ := sendReq_noted hall
    have hwritten := h.written w k
    rw [← List.append_assoc]
    refine ⟨fun id s hs => ?_, fun id hid => latest_isSome_append (hwritten.sent id (hids ▸ hid))⟩
    rw [hstamps] at hs
    rw [latest_append_singleton, Sending.carried]
    split at hs
    · rename_i hid
      obtain ⟨_, -, rfl⟩ := Option.map_eq_some_iff.mp hs
      rw [if_pos hid]
      exact ⟨rfl, rfl⟩
    · rename_i hid
      rw [if_neg hid, Option.none_or]
      exact hwritten.stamps id s hs
  · rename_i hnot
    exact (h.same (sendReq_refused hnot)).written w k

/-- `send_all_reqs`. -/
theorem forEach_sendReq_logged (h : w.Logged log) (keys : List Key) :
    (forEach keys sendReq w).2.Logged
      (log ++ visits (fun _ => true) sendReq (fun k w => w.requests k) keys w) := by
  induction keys generalizing w log with
  | nil =>
    rw [visits, List.append_nil]
    exact h
  | cons k keys ih =>
    have hone := sendReq_logged h k
    rw [visits, ← List.append_assoc]
    obtain ⟨r, hr⟩ : ∃ r, sendReq k w = r := ⟨_, rfl⟩
    rw [hr] at hone
    obtain ⟨e | _, v⟩ := r
    · rw [forEach, run_bind_error hr, hr, onward, List.append_nil]
      exact hone
    · rw [forEach, run_bind_ok hr, hr, onward, if_pos rfl]
      exact ih hone

theorem sendAllReqs_logged (h : w.Logged log) : (sendAllReqs w).2.Logged (log ++ w.asks) :=
  have hcleared : ({ w with router.tree.responses := ∅ } : World).Logged log := ⟨h.stamps, h.sent⟩
  forEach_sendReq_logged hcleared (sortKeys w.links.peers)

/-- The requests that the history has are those that went out. -/
theorem sendReq_wrote (k : Key) (w : World) : ∃ req : SigReq, (sendReq k w).2.events = w.events ++
    ((w.links.turnsTo w.tick k).takeWhile fun x => w.env.writes x.tick).map fun x =>
      .wrote x.link .sigReq req.encode := by
  by_cases hlinked : w.links.linksTo k = []
  · obtain ⟨req, w₁, hopen, hrun⟩ := sendReq_run k w
    have hturns : w.links.turnsTo w.tick k = [] := by
      rw [LinkSet.turnsTo, hlinked]
      rfl
    refine ⟨req, ?_⟩
    rw [hrun, run_bind_ok (result_err (writeAll_none hopen hlinked _)), hturns]
    exact hopen.events.trans (List.append_nil _).symm
  · obtain ⟨req, ⟨w', hrun, hopen, -, -, htaken⟩ | ⟨done, id, rest, w', -, hrun, hopen, -, before, x,
      after, hturns, hdone, -, htaken, hrefused⟩⟩ := sendReq_cases hlinked
    · refine ⟨req, ?_⟩
      have hlinks : (w.links.turnsTo w.tick k).map Turn.link = w.links.linksTo k := by
        exact List.ext_getElem (by simp [LinkSet.turnsTo]) (by simp [LinkSet.turnsTo])
      rw [hrun, hopen.events, List.takeWhile_eq_self_iff.mpr htaken, ← hlinks, List.map_map]
      rfl
    · refine ⟨req, ?_⟩
      rw [hrun, hopen.events, hturns, List.takeWhile_append_of_pos htaken,
        List.takeWhile_cons_of_neg (by simp [hrefused]), List.append_nil, ← hdone, List.map_map]
      rfl

/-! ### Maintenance -/

theorem rootedOrWaiting_allows {S : Scope} {strict : Prop} (hgrows : S.grows) (hadopt : S.adopts) :
    (rules S strict).Allows rootedOrWaiting := by
  refine .gets_bind fun r => .ite ?_ (.ite ?_ (.pure _))
  · refine .bind (becomeRoot_allows hgrows hadopt) fun _ => ?_
    exact .bind (.modify fun _ _ => .flags hgrows _ _ _) fun _ => .pure _
  · refine .bind (.modify fun w _ => ?_) fun _ => .pure _
    exact .flags hgrows w.router.tree.refresh true w.router.tree.doRoot2

theorem fixed_allows {S : Scope} {strict : Prop} (hgrows : S.grows) (hadopt : S.adopts) :
    (rules S strict).Allows fixed := by
  refine .gets_bind fun r => .gets_bind fun ls => .ite ?_ (.pure _)
  split
  · refine .ite ?_ (rootedOrWaiting_allows hgrows hadopt)
    refine .bind (useResponse_allows hadopt _ _) fun _ => ?_
    refine .ite ?_ (rootedOrWaiting_allows hgrows hadopt)
    exact .bind (.modify fun _ _ => .flags hgrows _ _ _) fun _ => .pure _
  · exact rootedOrWaiting_allows hgrows hadopt

theorem maintain_logged (hw : Inv .free w) (h : w.Logged log) :
    (w.act .maintain).Logged (log ++ w.sends .maintain) := by
  obtain ⟨v, hv⟩ : ∃ v, expireTree w = (.ok (), v) := ⟨_, rfl⟩
  have hinv : Inv .free v := hw.of_allows (expireTree_allows trivial) hv
  have hv' : v.Logged log := by
    have hsame := SameStamps.of_obeys (expireTree_allows trivial w) hw
    rw [hv] at hsame
    exact h.same hsame
  have hsends : w.sends .maintain = onward (fixed v) fun asks w' => if asks then w'.asks else [] := by
    rw [World.sends, hv]
  have hfix : Inv .free (fix v).2 ∧ (fix v).2.Logged (log ++ w.sends .maintain) := by
    refine ⟨hinv.of_allows (fix_allows trivial trivial trivial) rfl, ?_⟩
    have hfixed := hv'.same (SameStamps.of_obeys (fixed_allows trivial trivial v) hinv)
    rw [hsends, fix_asks]
    obtain ⟨r, hr⟩ : ∃ r, fixed v = r := ⟨_, rfl⟩
    rw [hr] at hfixed ⊢
    obtain ⟨e | asks, v₁⟩ := r
    · rw [run_bind_error hr, onward, List.append_nil]
      exact hfixed
    · rw [run_bind_ok hr, onward, askIf]
      cases asks with
      | false =>
        rw [if_neg Bool.false_ne_true, if_neg Bool.false_ne_true, List.append_nil]
        exact hfixed
      | true =>
        rw [if_pos rfl, if_pos rfl]
        exact sendAllReqs_logged hfixed
  have hmaintain : maintain w = (fix >>= fun _ => tidy) v := by
    rw [maintain, run_bind_ok hv]
  show (maintain w).2.Logged _
  rw [hmaintain]
  refine snd_bind hfix (P := fun v => Inv .free v ∧ v.Logged (log ++ w.sends .maintain))
    (fun _ v₁ _ hv₁ => ?_) |>.2
  refine ⟨hv₁.1.of_allows (tidy_allows False.elim trivial trivial trivial trivial) rfl, ?_⟩
  exact hv₁.2.same (.of_obeys (tidy_allows False.elim trivial trivial trivial trivial v₁) hv₁.1)

/-! ### Connections -/

theorem sendFilter_run (id : LinkId) (k : Key) (w : World) :
    ∃ bytes, sendFilter id k w = writeConn id .bloomFilter bytes w := by
  rw [sendFilter, router, Prog.gets_bind]
  cases w.router.bloom.send.lookup k with
  | none => exact ⟨[], rfl⟩
  | some b =>
    dsimp only
    rw [BloomFilter.encode_eq]
    exact ⟨_, rfl⟩

/-- A frame that went out on a connection was taken. -/
theorem writeConn_taken {id : LinkId} {ftype : FrameType} {payload : Bytes}
    (h : writeConn id ftype payload w = (.ok (), w')) :
    w.env.writes w.tick = true ∧ w'.tick = w.tick + 1 ∧ w'.env = w.env := by
  rw [writeConn_run] at h
  split at h
  · rename_i htaken
    cases h
    exact ⟨htaken, rfl, rfl⟩
  · cases h

/-- A peer that was greeted has taken the filter and the request. -/
theorem greet_taken {id : LinkId} {k : Key} {req : SigReq} {known : Bool}
    (h : greet id k req known w = (.ok (), w')) :
    w.env.writes w.tick = true ∧ w.env.writes (w.tick + 1) = true := by
  obtain ⟨_, v, hfilter, hrest⟩ := run_bind_eq_ok h
  obtain ⟨bytes, hbytes⟩ := sendFilter_run id k w
  obtain ⟨htaken, htick, henv⟩ := writeConn_taken (hbytes.symm.trans hfilter)
  obtain ⟨_, v', hreq, -⟩ := run_bind_eq_ok hrest
  have htaken' := (writeConn_taken hreq).1
  rw [henv, htick] at htaken'
  exact ⟨htaken, htaken'⟩

theorem Entered.logged {v : World} {k : Key} (hentered : Entered k w v) (h : w.Logged log) :
    v.Logged (log ++ w.registration k) := by
  have hnew : v.Logged (log ++ [.entered w.nextLink]) := by
    refine ⟨fun id s hs => ?_, fun id hid => latest_isSome_append (h.sent id (hentered.links ▸ hid))⟩
    rw [hentered.stamps] at hs
    rw [latest_append_singleton, Sending.carried]
    by_cases hid : id = w.nextLink
    · rw [if_pos hid] at hs
      rw [if_pos hid.symm, ← Option.some.inj hs]
      exact ⟨rfl, rfl⟩
    · rw [if_neg hid] at hs
      rw [if_neg (Ne.symm hid), Option.none_or]
      exact h.stamps id s hs
  rw [World.registration, List.append_cons]
  refine hnew.write fun m hm id => ?_
  rw [List.mem_ite_nil_right, List.mem_singleton] at hm
  rw [hm.2]
  rfl

/-- A new link carries the epoch, and none joins the set without a request. -/
theorem connect_logged (hw : Inv .free w) (h : w.Logged log) (k : Key) (prio : UInt8) (kept : Bool) :
    (w.act (.connect k prio kept)).Logged (log ++ w.registration k) := by
  obtain ⟨req, v, hentered, hrun⟩ := connect_run hw k prio kept
  have hgreet := (hentered.logged h).same (SameStamps.of_obeys
    (greet_allows trivial w.nextLink k req (k ∈ w.router.tree.peers) v) hentered.inv)
  show (connect k prio kept w).2.Logged _
  rw [hrun]
  refine snd_bind (P := fun v' => World.Logged v' (log ++ w.registration k)) hgreet
    fun _ v' hgreeted hlogged => ?_
  cases kept with
  | false => exact hlogged
  | true =>
    have htaken := greet_taken hgreeted
    rw [hentered.env, hentered.tick] at htaken
    refine ⟨hlogged.stamps, fun id hid => ?_⟩
    have hids : id ∈ v'.links.ids ++ [w.nextLink] := by
      have hadd : id ∈ (v'.links.add ⟨w.nextLink, k⟩ _).ids := hid
      rw [LinkSet.ids_add] at hadd
      exact hadd
    rcases List.mem_append.mp hids with hold | hnew
    · exact hlogged.sent id hold
    · rw [List.mem_singleton.mp hnew, World.registration, if_pos htaken, List.append_cons,
        latest_append_singleton, Sending.written, if_pos rfl]
      rfl

/-! ### Runs -/

theorem disconnect_logged (h : w.Logged log) (id : LinkId) :
    (w.act (.disconnect id)).Logged log := by
  refine ⟨fun i s hs => h.stamps i s ?_, fun i hi => h.sent i (w.links.ids_remove_subset id hi)⟩
  have hs' : ((w.router.tree.links.erase id).lookup i).map LinkState.sentAt = some s := hs
  by_cases hi : i = id
  · rw [hi, AList.lookup_erase] at hs'
    cases hs'
  · rw [AList.lookup_erase_ne hi] at hs'
    exact hs'

theorem act_logged (hw : Inv .free w) (h : w.Logged log) (a : Action) :
    (w.act a).Logged (log ++ w.sends a) := by
  have hquiet : ∀ {v : World}, v.Logged log → v.Logged (log ++ []) := by
    intro v hv
    rw [List.append_nil]
    exact hv
  cases a with
  | connect peer prio kept => exact connect_logged hw h peer prio kept
  | maintain => exact maintain_logged hw h
  | disconnect id => exact hquiet (disconnect_logged h id)
  | frame conn ftype payload =>
    refine hquiet (h.same (sameStamps_act hw _ ?_))
    cases ftype <;> trivial
  | _ => exact hquiet (h.same (sameStamps_act hw _ trivial))

theorem run_logged (hw : Inv .free w) (h : w.Logged log) (actions : List Action) :
    (w.run actions).Logged (log ++ w.sendings actions) := by
  induction actions generalizing w log with
  | nil =>
    rw [World.sendings, List.append_nil]
    exact h
  | cons a actions ih =>
    rw [World.run_cons, World.sendings, ← List.append_assoc]
    exact ih (inv_act hw a) (act_logged hw h a)

theorem init_logged (seed : Key) (env : Env) (actions : List Action) :
    ((World.init seed env).run actions).Logged ((World.init seed env).sendings actions) := by
  have hempty : (World.init seed env).Logged [] := ⟨fun _ _ => nofun, fun _ => nofun⟩
  exact run_logged (World.inv_run seed env []) hempty actions

/-! ## Responses -/

/-- A response that counts for the lag: it answers the request of its peer, and is the first on
its link since the last `send_req`. -/
def Router.Counts (r : Router) (conn : LinkId) (peer : Key) (res : SigRes) : Prop :=
  res.check r.pubkey peer = true ∧ (∃ p ∈ r.tree.peers.lookup peer, p.req = res.req) ∧
    ∃ l ∈ r.tree.links.lookup conn, l.responded = false

namespace World

/-- The round trip `handle_response` uses: the clock, less the time the link carries. -/
def roundTrip (w : World) (conn : LinkId) : Option Nat :=
  ((w.router.tree.links.lookup conn).bind LinkState.sentAt).map (w.env.now w.tick - ·)

/-- The lag of a link. -/
def lagAt (w : World) (conn : LinkId) : Option Nat :=
  (w.router.tree.links.lookup conn).map LinkState.lag

/-- A frame with a response that counts. -/
def Responds (w : World) (conn : LinkId) (payload : Bytes) : Prop :=
  ∃ peer res, w.links.peerOf conn = some peer ∧
    (SigRes.decode payload >>= Wire.exact) = .ok res ∧ w.router.Counts conn peer res

end World

/-- `handle_response` updates the lag of its link with the round trip, if the response counts. -/
theorem handleResponse_lag {conn : LinkId} {peer : Key} {res : SigRes} {rtt : Nat}
    (hcounts : w.router.Counts conn peer res) (hrtt : w.roundTrip conn = some rtt) :
    (handleResponse conn peer res w).2.lagAt conn = (w.lagAt conn).map (nextLag · rtt) := by
  obtain ⟨hcheck, ⟨p, hp, hreq⟩, l, hl, hresponded⟩ := hcounts
  rw [World.roundTrip] at hrtt
  have hanswers : ((w.router.tree.peers.lookup peer).any fun p => p.req = res.req) = true := by
    rw [hp, Option.any_some, hreq]
    exact decide_eq_true rfl
  have hrun : (handleResponse conn peer res w).2.router.tree.links =
      (w.router.tree.links.modify conn fun l =>
        { l with srrt := some (w.env.now (w.tick + 1)) }).modify conn fun l =>
          if l.responded then l else { l with responded := true, lag := nextLag l.lag rtt } := by
    rw [handleResponse, router, Prog.gets_bind, hcheck, if_neg (by decide), now, draw_bind,
      draw_bind]
    dsimp only
    rw [hanswers, hrtt]
    rfl
  rw [World.lagAt, World.lagAt, hrun, Assoc.lookup_modify, Assoc.lookup_modify, if_pos rfl,
    if_pos rfl, hl]
  simp [hresponded]

/-- Programs that leave the router alone. -/
def standing (r : Router) : Rules World Exit where
  step w w' := w'.router = w.router
  inv w := w.router = r
  bad _ _ := False
  keeps h hw := h.trans hw

instance (r : Router) : Writes (standing r) where
  tick _ _ := rfl
  wrote _ _ _ _ _ _ := rfl
  stamp _ _ _ := rfl
  retire _ _ _ _ := rfl
  not_bad _ _ _ h := h
  steady _ _ _ h := h

theorem keepaliveIfIdle_router (conn : LinkId) (w : World) :
    (keepaliveIfIdle conn w).2.router = w.router :=
  Rules.inv_of_walk (R := standing w.router) ((keepaliveIfIdle_allows conn w rfl).1) rfl

/-- A frame with a response that counts updates the lag of its link with the round trip. -/
theorem dispatchFrame_lag {conn : LinkId} {payload : Bytes} {rtt : Nat}
    (hresponds : w.Responds conn payload) (hrtt : w.roundTrip conn = some rtt) :
    (dispatchFrame conn .sigRes payload w).2.lagAt conn = (w.lagAt conn).map (nextLag · rtt) := by
  obtain ⟨peer, res, hpeer, hres, hcounts⟩ := hresponds
  have hhandle : handleFrame conn peer payload .sigRes w = handleResponse conn peer res w := by
    rw [handleFrame, hres]
    show (if res.check w.router.pubkey peer then handleResponse conn peer res else pure ()) w = _
    rw [if_pos hcounts.1]
  rw [dispatchFrame, links, Prog.gets_bind, hpeer]
  dsimp only
  rw [run_bind, hhandle, ← run_bind]
  refine snd_bind (P := fun v => World.lagAt v conn = (w.lagAt conn).map (nextLag · rtt))
    (handleResponse_lag hcounts hrtt) fun _ v _ hlag => ?_
  rw [if_neg (by decide), World.lagAt, keepaliveIfIdle_router]
  exact hlag

/-- **The lag is measured from the latest request exactly if that was written at the time the
link carries**: zero since `register`, or the time noted after the last `send_req` to its peer
that no link refused. A clock that has gone back behind both makes no difference between them. -/
theorem lag_measured_iff (seed : Key) (env : Env) (actions : List Action) (conn : LinkId)
    (payload : Bytes) :
    let w := (World.init seed env).run actions
    let log := (World.init seed env).sendings actions
    (w.Responds conn payload → ∃ rtt sent, w.roundTrip conn = some rtt ∧
      (w.act (.frame conn .sigRes payload)).lagAt conn = (w.lagAt conn).map (nextLag · rtt) ∧
      latest (Sending.written conn) log = some sent ∧ rtt = env.now w.tick - sent) ↔
    (w.Responds conn payload → ∃ carried sent, latest (Sending.carried conn) log = some carried ∧
      latest (Sending.written conn) log = some sent ∧
      (carried = sent ∨ env.now w.tick ≤ carried ∧ env.now w.tick ≤ sent)) := by
  intro w log
  refine forall_congr' fun hresponds => ?_
  have hlogged : w.Logged log := init_logged seed env actions
  have henv : w.env = env := World.env_run seed env actions
  obtain ⟨peer, res, -, -, -, -, l, hl, -⟩ := id hresponds
  obtain ⟨hsome, hcarried⟩ := hlogged.stamps conn l.sentAt (by rw [TreeState.stampAt, hl]; rfl)
  obtain ⟨carried, hstamp⟩ := Option.isSome_iff_exists.mp hsome
  rw [hstamp] at hcarried
  have hrtt : w.roundTrip conn = some (env.now w.tick - carried) := by
    rw [World.roundTrip, hl, Option.bind_some, hstamp, henv]
    rfl
  have hagree : ∀ t a b : Nat, t - a = t - b ↔ a = b ∨ t ≤ a ∧ t ≤ b := by omega
  constructor
  · rintro ⟨rtt, sent, hrtt', -, hsent, heq⟩
    refine ⟨carried, sent, hcarried.symm, hsent, (hagree _ _ _).mp ?_⟩
    rw [← heq]
    exact Option.some.inj (hrtt.symm.trans hrtt')
  · rintro ⟨carried', sent, hcarried', hsent, heq⟩
    cases hcarried.trans hcarried'
    exact ⟨_, sent, hrtt, dispatchFrame_lag hresponds hrtt, hsent, (hagree _ _ _).mpr heq⟩

end

/-! ## A first response -/

section

attribute [local instance] Sample.lenient

/-- The node with key 9 has a link, and no tick of maintenance yet. -/
def greeted : World :=
  (World.init (smallKey 9) (.even 1)).run [.connect (smallKey 3) 0 true]

/-- The answer to the request of `register`. -/
def firstAnswer : SigRes :=
  SigRes.seal ⟨1, 0⟩ 5 (smallKey 9) (smallKey 3) (smallKey 3)

/-- The first response on a link is measured from the epoch, not from its request. -/
theorem first_lag_from_epoch :
    greeted.Responds 0 firstAnswer.encode ∧
      greeted.roundTrip 0 = some (greeted.env.now greeted.tick) ∧
      ∃ sent, latest (Sending.written 0) ((World.init (smallKey 9) (.even 1)).sendings
          [.connect (smallKey 3) 0 true]) = some sent ∧
        greeted.env.now greeted.tick ≠ greeted.env.now greeted.tick - sent ∧
        (greeted.act (.frame 0 .sigRes firstAnswer.encode)).lagAt 0 =
          some (greeted.env.now greeted.tick * 2) := by
  refine ⟨⟨smallKey 3, firstAnswer, by decide +kernel, by decide +kernel, by decide +kernel,
    by decide +kernel, by decide +kernel⟩, by decide +kernel, 2, by decide +kernel,
    by decide +kernel, by decide +kernel⟩

end

end Roots
