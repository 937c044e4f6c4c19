import Roots.Client.Dials
import Roots.Client.Node
import Roots.Crypto.Sample
import Roots.Router.Books

/-!
# Roots.Client.Served

The set of links and the router's books of them. The node task owns both and updates them one
after the other, so they could come apart in two ways.

**Every link of the set is in the books, with the key of its peer** (`links_served`): a link is
registered before it joins the set, and it leaves both or only the set. `best_link` indexes the
books with the ids of the set and never misses.

The other inclusion fails. `LinkSet::send` retires a link that refuses a frame and cannot tell
the router; `register` writes the books before it writes to the connection, and nothing takes
the entry back when a frame is refused or when the row the dial was for is gone. Where every
frame is taken, **the books have no other links than the set if and only if every dial that
comes up finds its row waiting** (`no_ghosts_iff`).
-/

namespace Roots

open Prog RouterM

section

variable [Crypto] {S : Scope} {w w' : World}

/-! ## Links of the set -/

/-- What the books know of the set: every link of it, for the same peer, so that `best_link`
does not abort, alone or in a flood that retires links on its way. -/
structure World.Serves (w : World) : Prop where
  known : ∀ e ∈ w.links.entries,
    ∃ l, w.router.tree.links.lookup e.id = some l ∧ l.peer = e.peer
  best : ∀ key, (bestLink key w).1 ≠ .error .panic
  floods : ∀ src dest payload, (multicast src dest .pathLookup payload w).1 ≠ .error .panic

/-- Rules under which only an abort is a bad end. -/
private def unaborted (S : Scope) : Rules World Exit := stepping S fun e _ => e = .panic

private instance : Writes (unaborted S) :=
  writes_stepping (fun _ _ _ h => nomatch h) fun _ _ _ h => nomatch h

theorem Inv.serves (hw : Inv S w) : w.Serves where
  known e he := Option.map_eq_some_iff.mp (hw.served e he)
  best key hpanic := by
    have hbest : Obeys (unaborted S) (bestLink key) w := bestLink_allows (fun hw => Inv.linked hw) key w
    exact hbest.not_bad hw hpanic rfl
  floods src dest payload hpanic := by
    have hfloods : Obeys (unaborted S) (multicast src dest .pathLookup payload) w :=
      multicast_allows (R := unaborted S) (fun hw => Inv.linked hw) (records_stepping (by decide)) src
        dest payload w
    exact hfloods.not_bad hw hpanic rfl

/-! ## Links of the books -/

/-- The books have no link that is not in the set. -/
def World.NoGhosts (w : World) : Prop := ∀ id ∈ w.router.tree.links, id ∈ w.links.ids

theorem mem_links_of_peerAt {id : LinkId}
    (h : ∀ id, w'.router.tree.peerAt id = w.router.tree.peerAt id) :
    id ∈ w'.router.tree.links ↔ id ∈ w.router.tree.links := by
  rw [← TreeState.peerAt_isSome, ← TreeState.peerAt_isSome, h]

theorem Wired.noGhosts (h : Wired w w') (htaken : w.Taken) (hclean : w.NoGhosts) :
    w'.NoGhosts := fun id hid => by
  rw [h.kept htaken]
  exact hclean id ((mem_links_of_peerAt h.links).mp hid)

theorem noGhosts_disconnect (hids : w.links.ids.Nodup) (hclean : w.NoGhosts) (id : LinkId) :
    (w.act (.disconnect id)).NoGhosts := by
  intro i hi
  obtain ⟨hne, hmem⟩ := AList.mem_erase.mp hi
  show i ∈ (w.links.remove id).ids
  rw [LinkSet.ids_remove, hids.mem_erase_iff]
  exact ⟨hne, hclean i hmem⟩

/-! ### A new connection -/

/-- Where every frame is taken, a connection is registered, and joins the set if it is kept. -/
theorem connect_taken (hw : Inv .free w) (htaken : w.Taken) (peer : Key) (prio : UInt8)
    (kept : Bool) :
    (connect peer prio kept w).2.links.ids = w.links.ids ++ (if kept then [w.nextLink] else []) ∧
      ∀ id, id ∈ (connect peer prio kept w).2.router.tree.links ↔
        id = w.nextLink ∨ id ∈ w.router.tree.links := by
  obtain ⟨req, v, hentered, hrun⟩ := connect_run hw peer prio kept
  have htaken' : v.Taken := fun n => by
    rw [hentered.env]
    exact htaken n
  obtain ⟨v₁, hv₁, -⟩ := sure_greet w.nextLink peer req
    (decide (peer ∈ w.router.tree.peers)) v htaken'
  -- The books have the link now, and the greeting leaves them alone.
  have hgreet := Wired.of_allows (greet_allows (S := Scope.free.wired) trivial _ _ _ _)
    hentered.inv hv₁
  have hmem : ∀ id, id ∈ v.router.tree.links ↔ id = w.nextLink ∨ id ∈ w.router.tree.links := by
    intro id
    rw [← TreeState.stampAt_isSome, ← TreeState.stampAt_isSome, hentered.stamps]
    by_cases hid : id = w.nextLink <;> simp [hid]
  have hbooks : ∀ id, id ∈ v₁.router.tree.links ↔ id = w.nextLink ∨ id ∈ w.router.tree.links :=
    fun id => (mem_links_of_peerAt hgreet.links).trans (hmem id)
  have hids : v₁.links.ids = w.links.ids := by
    rw [hgreet.kept htaken', hentered.links]
  rw [hrun, run_bind_ok hv₁]
  cases kept with
  | false => exact ⟨hids.trans (List.append_nil _).symm, hbooks⟩
  | true =>
    refine ⟨?_, hbooks⟩
    show (v₁.links.add ⟨w.nextLink, peer⟩ _).ids = _
    rw [LinkSet.ids_add, hids]
    rfl

/-- A connection leaves a ghost exactly if it is not kept. -/
theorem noGhosts_connect_iff (hw : Inv .free w) (htaken : w.Taken) (hclean : w.NoGhosts)
    (peer : Key) (prio : UInt8) (kept : Bool) :
    (connect peer prio kept w).2.NoGhosts ↔ kept = true := by
  obtain ⟨hids, hmem⟩ := connect_taken hw htaken peer prio kept
  unfold World.NoGhosts
  rw [hids]
  cases kept with
  | false =>
    refine iff_of_false (fun h => ?_) Bool.false_ne_true
    have hlive := h w.nextLink ((hmem _).mpr (.inl rfl))
    exact hw.nextLink_new (by simpa using hlive)
  | true =>
    refine iff_of_true (fun id hid => ?_) rfl
    rcases (hmem id).mp hid with rfl | hid
    · exact List.mem_append_right _ (List.mem_singleton.mpr rfl)
    · exact List.mem_append_left _ (hclean id hid)

end

end Roots

namespace Roots.Client

open Prog RouterM

section

variable [Crypto] {n : Node}

theorem noGhosts_act {w : World} (hw : Inv .free w) (htaken : w.Taken) (hclean : w.NoGhosts)
    {a : Action} (ha : connects a = false) : (w.act a).NoGhosts := by
  have hwired : Scope.free.wired.Fits a → (w.act a).NoGhosts := fun hfits =>
    (Wired.of_walk (Obeys.walk (R := rules Scope.free.wired False)
      (a.body_obeys False.elim hfits
        (w.permits_all (fun _ _ => trivial) (fun _ _ => trivial) (fun _ => trivial) a))
      hw.wired)).noGhosts htaken hclean
  cases a with
  | connect => cases ha
  | disconnect id => exact noGhosts_disconnect hw.nodup hclean id
  | frame conn ftype payload => cases ftype <;> exact hwired (by trivial)
  | maintain => exact hwired ⟨trivial, trivial, trivial, trivial, trivial, trivial, trivial, trivial⟩
  | _ => exact hwired trivial

theorem noGhosts_run {w : World} (hw : Inv .free w) (htaken : w.Taken) (hclean : w.NoGhosts)
    (slice : Slice) : (w.run slice.1).NoGhosts := by
  obtain ⟨actions, hactions⟩ := slice
  show (w.run actions).NoGhosts
  induction actions generalizing w with
  | nil => exact hclean
  | cons a actions ih =>
    have hw' : Inv .free (w.act a) := inv_act hw a
    refine ih hw' (fun i => ?_) ?_ fun b hb => hactions b (List.mem_cons_of_mem a hb)
    · rw [World.env_act hw a]
      exact htaken i
    · exact noGhosts_act hw htaken hclean (hactions a (List.mem_cons_self ..))

/-- A dial that comes up finds its row waiting. -/
def Node.Expects (n : Node) : Task → Prop
  | .dialed token (.ok _) _ _ => (n.peers.awaiting token).isSome = true
  | _ => True

variable [UriParser]

/-- Where every frame is taken, the only task that leaves a ghost is a dial whose row is gone. -/
theorem noGhosts_task_iff (hw : Inv .free n.world) (htaken : n.world.Taken)
    (hclean : n.world.NoGhosts) (t : Task) : (n.act t).world.NoGhosts ↔ n.Expects t := by
  cases t with
  | dial | noteLiveness | startDue => exact iff_of_true hclean trivial
  | drop uri sintf =>
    refine iff_of_true ?_ trivial
    unfold Node.act Node.onDrop
    dsimp only
    split
    · exact hclean
    · split
      · exact hclean
      · exact noGhosts_disconnect hw.nodup hclean _
  | accept peer prio uri now =>
    refine iff_of_true ?_ trivial
    have hconnect := (noGhosts_connect_iff hw htaken hclean peer prio true).mpr rfl
    unfold Node.act Node.onAccept
    dsimp only
    split
    · exact hclean
    · split <;> rename_i heq <;> rw [heq] at hconnect <;> exact hconnect
  | dialed token outcome failed now =>
    cases outcome with
    | error err => exact iff_of_true hclean trivial
    | ok link =>
      obtain ⟨peer, prio⟩ := link
      have hconnect := noGhosts_connect_iff hw htaken hclean peer prio
        (n.peers.awaiting token).isSome
      refine Iff.trans ?_ hconnect
      unfold Node.act Node.onDial
      dsimp only
      split <;> rename_i heq <;> rw [heq]
  | work slice => exact iff_of_true (noGhosts_run hw htaken hclean slice) trivial

/-- **Where every frame is taken, the books of a node have no other links than its set**, after
every task of a run, if and only if every dial that comes up finds its row waiting. -/
theorem no_ghosts_iff (seed : Key) {env : Env} (htaken : ∀ i, env.writes i = true)
    (tasks : List Task) :
    (∀ before, before <+: tasks → ((Node.init seed env).run before).world.NoGhosts) ↔
      (Node.init seed env).Along Node.Expects tasks := by
  induction tasks using List.reverseRecOn with
  | nil =>
    refine iff_of_true (fun before hbefore => ?_) trivial
    rw [List.prefix_nil.mp hbefore]
    intro id hid
    cases hid
  | append_singleton tasks t ih =>
    have hstep : ((Node.init seed env).run tasks).world.NoGhosts →
        (((Node.init seed env).run (tasks ++ [t])).world.NoGhosts ↔
          ((Node.init seed env).run tasks).Expects t) := by
      intro hclean
      rw [Node.run_append]
      refine noGhosts_task_iff (Node.inv_run seed env tasks) (fun i => ?_) hclean t
      obtain ⟨actions, hrun⟩ := Node.run_world seed env tasks
      rw [hrun, World.env_run]
      exact htaken i
    rw [Node.along_append, ← ih]
    constructor
    · intro h
      have hbefore : ∀ before, before <+: tasks →
          ((Node.init seed env).run before).world.NoGhosts := fun before hpre =>
        h before (hpre.trans (List.prefix_append tasks [t]))
      exact ⟨hbefore, (hstep (hbefore tasks List.prefix_rfl)).mp (h _ List.prefix_rfl), trivial⟩
    · rintro ⟨h, hexpects, -⟩ before hpre
      rcases List.prefix_concat_iff.mp hpre with rfl | hpre
      · exact (hstep (h tasks List.prefix_rfl)).mpr hexpects
      · exact h before hpre

/-- **Every link of a node's set is in its router's books for the same peer**, after every list
of tasks, and `best_link` does not miss. -/
theorem links_served (seed : Key) (env : Env) (tasks : List Task) :
    ((Node.init seed env).run tasks).world.Serves := (Node.inv_run seed env tasks).serves

end

/-! ## Ghosts -/

section

attribute [local instance] Sample.lenient permissive

/-- The end of a pass of the loop: the links are looked after, and the router has its turn. -/
def turn (now : Instant) : List Task :=
  [.noteLiveness fun _ => now, .startDue now, .work ⟨[.maintain], by decide⟩]

/-- In the first pass a peer is configured and dialled. In the second it is dropped, and then
its connection comes up. -/
def abandoned : List Task :=
  [.dial peerUri [] true 0] ++ turn 1 ++
    [.drop peerUri [], .dialed 0 (.ok (Sample.smallKey 3, 0)) [] 2] ++ turn 3

/-- A pass in which a connection is accepted. -/
def accepting : List Task := [.accept (Sample.smallKey 3) 0 none 0] ++ turn 1

/-- A node whose socket refuses one frame. -/
def refusing (tick : Nat) : Node :=
  .init (Sample.smallKey 9) (.refusing tick)

def taking : Node := .init (Sample.smallKey 9) (.even 1)

theorem taking_expects : taking.Along Node.Expects accepting :=
  ⟨trivial, trivial, trivial, trivial, trivial⟩

/-- A link that was accepted is in the books and in the set. -/
theorem no_ghosts_accepting :
    0 ∈ (taking.run accepting).world.router.tree.links ∧
      ∀ before, before <+: accepting → (taking.run before).world.NoGhosts :=
  ⟨by decide +kernel, (no_ghosts_iff _ (fun _ => rfl) accepting).mpr taking_expects⟩

theorem ghosts_facts :
    ((taking.run abandoned).world.router.tree.links.keys = [0] ∧
        (taking.run abandoned).world.links.ids = []) ∧
      (((refusing 1).run accepting).world.router.tree.links.keys = [0] ∧
        ((refusing 1).run accepting).world.links.ids = []) ∧
      ((refusing 9).run accepting).world.router.tree.links.keys = [0] ∧
        ((refusing 9).run accepting).world.links.ids = [] := by decide +kernel

/-- A dial whose row is gone, a greeting that is refused and a frame that is refused later all
leave a link in the books that is in the set no longer. -/
theorem ghosts_left :
    ¬ (taking.run abandoned).world.NoGhosts ∧ ¬ ((refusing 1).run accepting).world.NoGhosts ∧
      ¬ ((refusing 9).run accepting).world.NoGhosts := by
  obtain ⟨habandoned, hgreeting, hlater⟩ := ghosts_facts
  have hghost : ∀ {w : World}, w.router.tree.links.keys = [0] ∧ w.links.ids = [] →
      ¬ w.NoGhosts := by
    rintro w ⟨hkeys, hids⟩ hclean
    have hmem : 0 ∈ w.router.tree.links := by
      rw [AList.mem_keys, hkeys]
      exact List.mem_singleton.mpr rfl
    have hlive := hclean 0 hmem
    rw [hids] at hlive
    cases hlive
  exact ⟨hghost habandoned, hghost hgreeting, hghost hlater⟩

end

end Roots.Client
