import Roots.Client.Node
import Roots.Router.Broken
import Roots.Router.Serve
import Roots.Wire.Stream

/-!
# Roots.Client.Loop

`Node::run` of `client/src/node.rs`. A pass of the loop takes the commands, serves the links for a
while and then moves payloads between the router and the rest of the node. The errors of the
commands are answered and those of the device drop the device; an error of `serve` ends the loop
**unless it only means that a link is gone**.

That gate sees the error of the last link as it was read. A peer that sends a length of zero, a
type that does not exist or half a frame makes `read_frame` fail with `InvalidLength`, which is no
link error: with one link, the node is gone (`nodeRun_ok_iff`).
-/

namespace Roots.Client

open Prog RouterM Wire

section

variable [Crypto]

/-- The commands that reach the router: connections come and go, and payloads and questions are
sent. -/
def isCommand : Action → Bool
  | .connect .. | .disconnect _ | .enqueue .. | .request .. => true
  | _ => false

/-- `settle_remote` and `pump_tun`. -/
def isUpkeep : Action → Bool
  | .drainInbox | .takeProto _ | .sendOrResolve .. => true
  | _ => false

/-- What happens in one turn of the loop. `rounds` are those of `serve_links`. -/
structure Pass where
  commands : List { a : Action // isCommand a = true }
  rounds : List Bool
  upkeep : List { a : Action // isUpkeep a = true }

/-- A method whose error is answered or printed. -/
def answered (m : RouterM Unit) : RouterM Unit := do
  let _ ← result m
  return ()

/-- The gate of the loop: `if let Err(e) = .. && !e.is_link() { return Err(e) }`. -/
def unlessLink (m : RouterM Unit) : RouterM Unit := do
  let served ← result m
  match served with
  | .ok _ => return ()
  | .error e => if e.isLink then return () else exit e

def Pass.body (p : Pass) : RouterM Unit := do
  forEach p.commands fun c => answered c.1.body
  unlessLink (serveLinks p.rounds)
  forEach p.upkeep fun u => answered u.1.body

/-- `Node::run`, for the passes before the one in which `Quit` is processed. -/
def nodeRun (passes : List Pass) : RouterM Unit := forEach passes Pass.body

/-! ## What is visited -/

def commandVisits : Action → List Visit
  | .request dest _ => [.send dest]
  | _ => []

def passVisits (p : Pass) (w : World) : List Visit :=
  visits (fun _ => true) (fun c => answered c.1.body) (fun c _ => commandVisits c.1) p.commands w ++
    onward (forEach p.commands (fun c => answered c.1.body) w) fun _ w' => serveVisits p.rounds w'

/-- The keys a run sends to and the reads it makes, in the states in which it makes them. -/
def runVisits (passes : List Pass) (w : World) : List Visit :=
  visits (fun _ => true) Pass.body passVisits passes w

/-! ## The two ways to take an error -/

section Run

variable {m : RouterM Unit} {w w' : World} {e : Exit}

theorem answered_ok (h : m w = (.ok (), w')) : answered m w = (.ok (), w') := by
  rw [answered, run_bind_ok (result_ok h)]
  rfl

theorem answered_err {e : Error} (h : m w = (.error (.err e), w')) :
    answered m w = (.ok (), w') := by
  rw [answered, run_bind_ok (result_err h)]
  rfl

theorem answered_abort (h : m w = (.error e, w')) (habort : e.aborts = true) :
    answered m w = (.error e, w') := by
  rw [answered, run_bind_error (result_abort h habort)]

theorem unlessLink_ok (h : m w = (.ok (), w')) : unlessLink m w = (.ok (), w') := by
  rw [unlessLink, run_bind_ok (result_ok h)]
  rfl

theorem unlessLink_error (h : m w = (.error e, w')) :
    unlessLink m w = (if e.isLink then .ok () else .error e, w') := by
  cases e with
  | err e =>
    rw [unlessLink, run_bind_ok (result_err h)]
    show (if (Exit.err e).isLink then pure () else exit (.err e) : RouterM Unit) w' = _
    split <;> rfl
  | panic | stuck =>
    rw [unlessLink, run_bind_error (result_abort h rfl)]
    rfl

/-- The state is that of the method. -/
theorem snd_answered : (answered m w).2 = (m w).2 := by
  obtain ⟨r, hr⟩ : ∃ r, m w = r := ⟨_, rfl⟩
  rw [hr]
  obtain ⟨(e | _ | _) | _, v⟩ := r
  · rw [answered_err hr]
  · rw [answered_abort hr rfl]
  · rw [answered_abort hr rfl]
  · rw [answered_ok hr]

theorem fails_of_answered (h : Fails Grave (answered m) w) : Fails Grave m w := by
  obtain ⟨r, hr⟩ : ∃ r, m w = r := ⟨_, rfl⟩
  obtain ⟨(e | _ | _) | _, v⟩ := r
  · exact absurd h (not_fails_of_ok (congrArg Prod.fst (answered_err hr)))
  · exact ⟨.panic, congrArg Prod.fst hr, rfl⟩
  · exact ⟨.stuck, congrArg Prod.fst hr, rfl⟩
  · exact absurd h (not_fails_of_ok (congrArg Prod.fst (answered_ok hr)))

theorem unlessLink_meets {seen : List Visit} (h : MeetsVisits m w seen) :
    MeetsVisits (unlessLink m) w seen := by
  obtain ⟨r, hr⟩ : ∃ r, m w = r := ⟨_, rfl⟩
  have hsame : (unlessLink m w).2 = (m w).2 ∧
      (Fails Grave (unlessLink m) w ↔ Fails Grave m w) := by
    obtain ⟨e | _, v⟩ := r
    · have hrun := unlessLink_error hr
      rw [fails_iff_of_error (congrArg Prod.fst hr), hr]
      refine ⟨by rw [hrun], ?_⟩
      split at hrun
      · rename_i hlink
        refine iff_of_false (not_fails_of_ok (congrArg Prod.fst hrun)) ?_
        rw [Grave, hlink]
        exact Bool.noConfusion
      · rw [fails_iff_of_error (congrArg Prod.fst hrun)]
    · have hrun := unlessLink_ok hr
      rw [hrun, hr]
      exact ⟨rfl, iff_of_false (not_fails_of_ok (congrArg Prod.fst hrun))
        (not_fails_of_ok (congrArg Prod.fst hr))⟩
  exact h.transfer hsame.1 hsame.2

end Run

/-! ## The loop -/

section Law

variable (law : PointCrypto) {w : World} (hw : Inv .free w)

include hw

theorem answered_inv (a : Action) : Inv .free (answered a.body w).2 := by
  have hobeys := a.body_obeys (S := .free) False.elim (Scope.free_open.fits a) (w.permits_free a)
  rw [snd_answered]
  exact hobeys.inv hw

include law

/-- A method that needs no condition. -/
theorem answered_meets (a : Action) (h : w.Permits .free True a) :
    MeetsVisits (answered a.body) w [] := by
  refine .quiet (fun hfails => ?_) (answered_inv hw a)
  rw [snd_answered]
  exact worn_of_obeys hw (a.body_obeys (fun _ => law) (Scope.free_open.fits a) h)
    (fails_of_answered hfails)

theorem command_meets (c : { a : Action // isCommand a = true }) :
    MeetsVisits (answered c.1.body) w (commandVisits c.1) := by
  obtain ⟨a, ha⟩ := c
  cases a with
  | request dest payload =>
    refine .one (fun hpoint => ?_) (fun hfails => ?_) (answered_inv hw _)
    · have hpanic := sessionSendKind_aborts law hw hpoint packetTypeProto ⟨payload, .proto⟩
      exact ⟨.panic, congrArg Prod.fst (answered_abort (Prod.ext hpanic rfl) rfl), rfl⟩
    · rw [or_iff_not_imp_left]
      intro hpoint
      refine (answered_meets law hw (.request dest payload) fun _ => ?_).blames hfails |>.resolve_left
        (by simp)
      exact Option.isSome_iff_ne_none.mpr hpoint
  | connect | disconnect | enqueue => exact answered_meets law hw _ trivial
  | _ => cases ha

theorem upkeep_meets (u : { a : Action // isUpkeep a = true }) :
    MeetsVisits (answered u.1.body) w [] := by
  obtain ⟨a, ha⟩ := u
  cases a with
  | sendOrResolve => exact answered_meets law hw _ fun _ _ _ => trivial
  | drainInbox | takeProto => exact answered_meets law hw _ trivial
  | _ => cases ha

theorem pass_meets (p : Pass) : MeetsVisits p.body w (passVisits p w) := by
  refine (Meets.forEach (fun c _ _ hw' => command_meets law hw' c) hw).bind fun _ w₁ _ hw₁ => ?_
  refine (unlessLink_meets (serveLinks_meets law hw₁ p.rounds)).bind_quiet fun _ w₂ _ hw₂ => ?_
  exact .forEach_quiet (fun u _ _ hw' => upkeep_meets law hw' u) hw₂

theorem nodeRun_meets (passes : List Pass) : MeetsVisits (nodeRun passes) w (runVisits passes w) :=
  .forEach (fun p _ _ hw' => pass_meets law hw' p) hw

end Law

/-- The loop does not end with an error that only means that a link is gone. -/
theorem nodeRun_raises (passes : List Pass) : Raises Grave (nodeRun passes) := by
  have hanswered : ∀ m, Raises Grave (answered m) := by
    intro m w e he
    obtain ⟨_, hfails, hgrave⟩ : Fails Grave (answered m) w := by
      obtain ⟨r, hr⟩ : ∃ r, m w = r := ⟨_, rfl⟩
      obtain ⟨(e | _ | _) | _, v⟩ := r
      · rw [answered_err hr] at he
        cases he
      · exact ⟨.panic, congrArg Prod.fst (answered_abort hr rfl), rfl⟩
      · exact ⟨.stuck, congrArg Prod.fst (answered_abort hr rfl), rfl⟩
      · rw [answered_ok hr] at he
        cases he
    rw [he] at hfails
    cases hfails
    exact hgrave
  have hserved : ∀ m, Raises Grave (unlessLink m) := by
    intro m w e he
    obtain ⟨r, hr⟩ : ∃ r, m w = r := ⟨_, rfl⟩
    obtain ⟨e' | _, v⟩ := r
    · rw [unlessLink_error hr] at he
      split at he
      · cases he
      · cases he
        exact Bool.eq_false_iff.mpr ‹_›
    · rw [unlessLink_ok hr] at he
      cases he
  refine .forEach fun p _ => .bind (.forEach fun c _ => hanswered _) fun _ => ?_
  exact .bind (hserved _) fun _ => .forEach fun u _ => hanswered _

/-- **The loop goes on until it is told to quit if and only if none of its visits is fatal**: no
read of the last link fails with anything but an error of its connection, no packet for this node
comes from a source that is no point and has no session or names the last key sequence in the name
of a source that has one, and nothing is sent to a key that is no point. -/
theorem nodeRun_ok_iff (law : PointCrypto) (seed : Key) (env : Env) (passes : List Pass)
    (hworn : ¬ (nodeRun passes (World.init seed env)).2.Worn) :
    (nodeRun passes (World.init seed env)).1 = .ok () ↔
      ∀ v ∈ runVisits passes (World.init seed env), ¬ v.Fatal := by
  rw [(nodeRun_raises passes).ok_iff, (nodeRun_meets law (Inv.init trivial env) passes).fails_iff hworn]
  simp only [not_exists, not_and]

end

/-! ## The last link -/

section

attribute [local instance] Sample.lenient

/-- How a read ends on what a peer has sent before it closed the connection. A body that is cut off
is an `InvalidLength`, a length that is cut off an I/O error. -/
def readOf (sent : Bytes) : Read :=
  match Progress.start.poll sent with
  | (.frame f, _) => .frame f.ftype f.payload
  | (.failed (.err e), _) => .failed e
  | (.failed _, _) => .failed .invalidLength
  | (.more (.body ..), _) => .failed .invalidLength
  | (.more (.length _), _) => .failed .io

/-- Surroundings in which every peer sends the bytes and closes the connection. -/
def sending (sent : Bytes) : Env := { Env.even 1 with reads := fun _ => readOf sent }

/-- A pass in which connections with some peers come up and are read. -/
def serving (peers : List Key) : Pass where
  commands := peers.map fun peer => ⟨.connect peer 0 true, rfl⟩
  rounds := [false]
  upkeep := []

/-- A peer that is the only one sends a length of zero, a type that does not exist or half a frame,
and the node is gone. -/
theorem last_link_ends_loop :
    ([[0], [1, 200], [5, 1]].map fun sent =>
      (nodeRun [serving [highKey 0xa0]] (World.init (highKey 0x90) (sending sent))).1) =
        List.replicate 3 (.error (.err .invalidLength)) := by
  decide +kernel

/-- With a second link the first may send what it likes, and the second may close. -/
theorem nodeRun_ok_closed :
    (nodeRun [serving [highKey 0xa0, highKey 0xb0]] (World.init (highKey 0x90) (sending [0x80]))).1 =
        .ok () ∧
      ∀ v ∈ runVisits [serving [highKey 0xa0, highKey 0xb0]]
        (World.init (highKey 0x90) (sending [0x80])), ¬ v.Fatal := by
  have hfacts : (nodeRun [serving [highKey 0xa0, highKey 0xb0]]
      (World.init (highKey 0x90) (sending [0x80]))).1 = .ok () ∧
      ¬ (nodeRun [serving [highKey 0xa0, highKey 0xb0]]
        (World.init (highKey 0x90) (sending [0x80]))).2.Worn := by decide +kernel
  exact ⟨hfacts.1, (nodeRun_ok_iff (Sample.pointCrypto) _ _ _ hfacts.2).mp hfacts.1⟩

end

end Roots.Client
