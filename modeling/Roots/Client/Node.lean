import Roots.Client.Links
import Roots.Router.Rules.Driver

/-!
# Roots.Client.Node

The node task of the client (`client/src/node.rs`), which owns the router, the set of links
and the link manager. A `Task` is one thing its loop does: a command, the result of a dial,
one of the two calls into the link manager, or a stretch of work on the router in which no
connection comes up. The loop does them in a fixed order; here **they come in any order**,
so what holds after every list of tasks holds of the loop.

The two connections a node gets, dialled and accepted, are both registered with the router,
noted in a row and added to the set: `register` before the row is touched, the set last.
-/

namespace Roots.Client

open Prog RouterM

/-- Whether an action of the router brings a new connection. -/
def connects : Action → Bool
  | .connect .. => true
  | _ => false

/-- What the loop does with the router between two tasks: serving, and the payloads that
come and go. -/
abbrev Slice := { actions : List Action // ∀ a ∈ actions, connects a = false }

/-- One thing the loop does. -/
inductive Task where
  /-- `Cmd::Dial`. -/
  | dial (uri sintf : Text) (persistent : Bool) (now : Instant)
  /-- `Cmd::Drop`. -/
  | drop (uri sintf : Text)
  /-- `Cmd::Accept` with a connection to a peer; a transport may not be able to name it. -/
  | accept (peer : Key) (prio : UInt8) (uri : Option Text) (now : Instant)
  /-- `LinkEvent::Dialed`. `failed` is the text of the error if the greeting is refused. -/
  | dialed (token : UInt64) (outcome : Except Text (Key × UInt8)) (failed : Text) (now : Instant)
  | noteLiveness (clock : Nat → Instant)
  | startDue (now : Instant)
  | work (slice : Slice)

variable [Crypto]

/-- The router with its links, and the link manager. -/
structure Node where
  world : World
  peers : Links

namespace Node

def init (seed : Key) (env : Env) : Node := ⟨.init seed env, .empty⟩

section Act

variable [UriParser]

/-- The `Drop` arm of `on_cmd`. -/
def onDrop (n : Node) (uri sintf : Text) : Node :=
  match n.peers.remove uri sintf with
  | .error _ => n
  | .ok peers =>
      match n.peers.liveId uri sintf with
      | none => { n with peers }
      | some id => { world := n.world.act (.disconnect id), peers }

/-- The `Accept` arm of `on_cmd`. A link without a URI is served but has no row. -/
def onAccept (n : Node) (peer : Key) (prio : UInt8) (uri : Option Text) (now : Instant) : Node :=
  if uri.any n.peers.busy then n
  else
    match connect peer prio true n.world with
    | (.error _, world) => { n with world }
    | (.ok _, world) =>
        { world
          peers :=
            match uri with
            | some uri => n.peers.accept uri n.world.nextLink peer now
            | none => n.peers }

/-- `on_dial`. The connection is only kept if there still is a row for it. -/
def onDial (n : Node) (token : UInt64) (outcome : Except Text (Key × UInt8)) (failed : Text)
    (now : Instant) : Node :=
  match outcome with
  | .error err => { n with peers := n.peers.markFailed token err now }
  | .ok (peer, prio) =>
      match connect peer prio (n.peers.awaiting token).isSome n.world with
      | (.error _, world) => { world, peers := n.peers.markFailed token failed now }
      | (.ok _, world) =>
          { world, peers := (n.peers.markLive token n.world.nextLink peer now).2 }

def act (n : Node) : Task → Node
  | .dial uri sintf persistent now =>
      { n with
        peers := (n.peers.add uri sintf (if persistent then .persistent else .ephemeral) now).2 }
  | .drop uri sintf => n.onDrop uri sintf
  | .accept peer prio uri now => n.onAccept peer prio uri now
  | .dialed token outcome failed now => n.onDial token outcome failed now
  | .noteLiveness clock => { n with peers := n.peers.noteLiveness n.world.links clock }
  | .startDue now => { n with peers := n.peers.startDue now }
  | .work slice => { n with world := n.world.run slice.1 }

def run (n : Node) (tasks : List Task) : Node := tasks.foldl act n

/-- `P` holds of every task of a run, in the state it is done in. -/
def Along (P : Node → Task → Prop) : Node → List Task → Prop
  | _, [] => True
  | n, t :: tasks => P n t ∧ Along P (n.act t) tasks

theorem run_append (n : Node) (tasks more : List Task) :
    n.run (tasks ++ more) = (n.run tasks).run more := List.foldl_append

theorem along_append {P : Node → Task → Prop} {n : Node} {tasks more : List Task} :
    n.Along P (tasks ++ more) ↔ n.Along P tasks ∧ (n.run tasks).Along P more := by
  induction tasks generalizing n with
  | nil => exact (and_iff_right trivial).symm
  | cons t tasks ih => exact (and_congr_right fun _ => ih).trans and_assoc.symm

end Act

end Node

/-! ## The router of a node -/

variable {w : World}

/-- A connection is registered and then joins the set, or its registration fails. -/
theorem connect_cases (peer : Key) (prio : UInt8) (kept : Bool) (w : World) :
    (∃ w', connect peer prio kept w = (.ok (), w') ∧ w'.nextLink = w.nextLink + 1 ∧
        w'.links.entries = w.links.entries ++ if kept then [⟨w.nextLink, peer⟩] else []) ∨
      ∃ e w', connect peer prio kept w = (.error e, w') ∧ w'.nextLink = w.nextLink + 1 ∧
        w'.links = w.links := by
  have hsame := register_links w.nextLink peer prio { w with nextLink := w.nextLink + 1 }
  rw [connect_eq]
  obtain ⟨r, hr⟩ : ∃ r, register w.nextLink peer prio { w with nextLink := w.nextLink + 1 } = r :=
    ⟨_, rfl⟩
  obtain ⟨e | _, v⟩ := r
  · rw [run_bind_error hr]
    rw [hr] at hsame
    exact .inr ⟨e, v, rfl, hsame.nextLink, hsame.links⟩
  · rw [run_bind_ok hr]
    rw [hr] at hsame
    refine .inl ?_
    cases kept with
    | false =>
      refine ⟨v, rfl, hsame.nextLink, ?_⟩
      rw [hsame.links]
      exact (List.append_nil _).symm
    | true =>
      refine ⟨_, rfl, hsame.nextLink, ?_⟩
      show v.links.entries ++ [_] = _
      rw [hsame.links]
      rfl

/-- No other action adds a link, and ids are only minted. -/
theorem act_wired (hw : Inv .free w) {a : Action} (ha : connects a = false) :
    (w.act a).links.ids ⊆ w.links.ids ∧ w.nextLink ≤ (w.act a).nextLink := by
  have hwired : Scope.free.wired.Fits a → (w.act a).links.ids ⊆ w.links.ids ∧
      w.nextLink ≤ (w.act a).nextLink := by
    intro hfits
    have hobeys : Obeys (rules Scope.free.wired False) a.body w := a.body_obeys False.elim hfits
      (w.permits_all (fun _ _ => trivial) (fun _ _ => trivial) (fun _ => trivial) a)
    have hwired := Wired.of_walk (hobeys.walk hw.wired)
    exact ⟨hwired.ids, hwired.nextLink⟩
  cases a with
  | connect => cases ha
  | disconnect id => exact ⟨w.links.ids_remove_subset id, le_refl _⟩
  | frame conn ftype payload => cases ftype <;> exact hwired (by trivial)
  | maintain => exact hwired ⟨trivial, trivial, trivial, trivial, trivial, trivial, trivial, trivial⟩
  | _ => exact hwired trivial

theorem run_wired (hw : Inv .free w) (slice : Slice) :
    (w.run slice.1).links.ids ⊆ w.links.ids ∧ w.nextLink ≤ (w.run slice.1).nextLink := by
  obtain ⟨actions, hactions⟩ := slice
  show (w.run actions).links.ids ⊆ w.links.ids ∧ w.nextLink ≤ (w.run actions).nextLink
  induction actions generalizing w with
  | nil => exact ⟨List.Subset.refl _, le_refl _⟩
  | cons a actions ih =>
    have hstep := act_wired hw (hactions a (List.mem_cons_self ..))
    have hw' : Inv .free (w.act a) := inv_act hw a
    have hrest := ih hw' fun b hb => hactions b (List.mem_cons_of_mem a hb)
    exact ⟨List.Subset.trans hrest.1 hstep.1, hstep.2.trans hrest.2⟩

section

variable [UriParser]

/-- What a task does to the router is a run of the router. -/
theorem Node.act_world (n : Node) (t : Task) :
    ∃ actions, (n.act t).world = n.world.run actions := by
  cases t with
  | dial | noteLiveness | startDue => exact ⟨[], rfl⟩
  | drop uri sintf =>
    unfold Node.act Node.onDrop
    dsimp only
    split
    · exact ⟨[], rfl⟩
    · split
      · exact ⟨[], rfl⟩
      · exact ⟨[_], rfl⟩
  | accept peer prio uri now =>
    unfold Node.act Node.onAccept
    dsimp only
    split
    · exact ⟨[], rfl⟩
    · refine ⟨[.connect peer prio true], ?_⟩
      show _ = (connect peer prio true n.world).2
      split <;> rename_i heq <;> rw [heq]
  | dialed token outcome failed now =>
    unfold Node.act Node.onDial
    dsimp only
    split
    · exact ⟨[], rfl⟩
    · rename_i peer prio
      refine ⟨[.connect peer prio (n.peers.awaiting token).isSome], ?_⟩
      show _ = (connect peer prio (n.peers.awaiting token).isSome n.world).2
      split <;> rename_i heq <;> rw [heq]
  | work slice => exact ⟨slice.1, rfl⟩

/-- **The router of a node is in a state that a router can reach**, so what holds of every
router holds of it. -/
theorem Node.run_world (seed : Key) (env : Env) (tasks : List Task) :
    ∃ actions, ((Node.init seed env).run tasks).world = (World.init seed env).run actions := by
  induction tasks using List.reverseRecOn with
  | nil => exact ⟨[], rfl⟩
  | append_singleton tasks t ih =>
    obtain ⟨actions, hrun⟩ := ih
    obtain ⟨more, hact⟩ := ((Node.init seed env).run tasks).act_world t
    refine ⟨actions ++ more, ?_⟩
    rw [Node.run_append, World.run_append, ← hrun]
    exact hact

theorem Node.inv_run (seed : Key) (env : Env) (tasks : List Task) :
    Inv .free ((Node.init seed env).run tasks).world := by
  obtain ⟨actions, hrun⟩ := Node.run_world seed env tasks
  rw [hrun]
  exact World.inv_run seed env actions

end

end Roots.Client
