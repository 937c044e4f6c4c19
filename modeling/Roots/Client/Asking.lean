import Roots.Client.Loop
import Roots.Client.Remote
import Roots.Client.Tun

/-!
# Roots.Client.Asking

`Node::run` with the questions to other nodes: a turn of the loop takes the commands, serves the
links, runs `settle_remote` and runs `pump_tun`. Payloads come into the two inboxes while the links
are served and at no other time (`Roots.Router.Filing`), and the two steps after that take them
out again.

Neither step takes all. `settle_remote` does nothing while no question waits, so a response that
nobody asked for stays, and **the next question of its kind gets it** (`answeredFresh_iff`).
`pump_tun` does nothing without a device, so without one the inbox is never emptied
(`drained_iff`).
-/

namespace Roots.Client

open Prog RouterM

section

variable [Crypto]

/-! ## The node -/

/-- A question that waits. The source has its first three fields; `before` says how many payloads
had been filed when it was sent, and `met` whether one of those that were still there answers it. -/
structure Question extends PendingRemote where
  before : Nat
  met : Bool

/-- A node with its device and its questions. The source has the first two fields. `filed` are the
payloads that have come into the protocol inbox so far, `places` says where in `filed` those are
that are still in it, and `handed` what `settle_remote` gave to whom. -/
structure Asker where
  bridge : Bridge
  pending : List Question
  filed : List (Key × Bytes)
  places : List Nat
  handed : List (Question × (Key × Bytes) × Nat)

abbrev NodeM : Type → Type := Prog Asker Exit

namespace Asker

def init (seed : Key) (env : Env) (localAddr : Option Address) : Asker where
  bridge := .init seed env localAddr
  pending := []
  filed := []
  places := []
  handed := []

def inbox (n : Asker) : List (Key × Bytes) := n.bridge.world.router.inbox

def protoInbox (n : Asker) : List (Key × Bytes) := n.bridge.world.router.protoInbox

/-- The protocol inbox, with the places of its payloads. -/
def stamped (n : Asker) : List ((Key × Bytes) × Nat) := n.protoInbox.zip n.places

/-- The router has gone on to `w`. -/
def file (n : Asker) (w : World) : Asker :=
  let more := w.router.protoInbox.drop n.protoInbox.length
  { n with
    bridge.world := w
    filed := n.filed ++ more
    places := n.places ++ List.range' n.filed.length more.length }

/-- A question was sent. -/
def ask (n : Asker) (q : PendingRemote) : Asker :=
  { n with pending := n.pending ++ [⟨q, n.filed.length, n.protoInbox.any q.fits⟩] }

/-- `Node::settle_remote`. -/
def settleRemote (n : Asker) (now : Instant) : Asker :=
  let settled := handOut (·.expired now) (·.fits) n.pending n.protoInbox
  let traced := handOut (·.expired now) (fun q x => q.fits x.1) n.pending n.stamped
  { n with
    bridge.world.router.protoInbox := settled.rest
    pending := settled.still
    places := traced.rest.map Prod.snd
    handed := n.handed ++ traced.handed }

/-- `Node::pump_tun`. -/
def pumpTun (n : Asker) (reads : List Bytes) (failsAt : Option Nat) : Asker :=
  { n with bridge := n.bridge.pumpTun reads failsAt }

end Asker

def onRouter {α : Type} (m : RouterM α) : NodeM α := fun n =>
  match m n.bridge.world with
  | (r, w) => (r, n.file w)

/-- The commands for the router, questions apart. -/
def isPlain : Action → Bool
  | .connect .. | .disconnect _ | .enqueue .. => true
  | _ => false

/-- A command, or a question with the time at which it has been sent. -/
inductive Command where
  | router (a : { a : Action // isPlain a = true })
  | remote (q : PendingRemote)

/-- `Node::on_cmd` and `Node::on_dial`. A question whose send fails is answered at once. -/
def Command.body : Command → NodeM Unit
  | .router a => onRouter (answered a.1.body)
  | .remote q => do
      let sent ← onRouter (result (protoSend netSend q.key q.what.request))
      match sent with
      | .ok _ => modify (·.ask q)
      | .error _ => return ()

/-- What happens in one turn of the loop: the commands, the rounds of `serve_links`, the time
`settle_remote` reads, what the kernel has for the device and the write to it that fails. -/
structure Turn where
  commands : List Command
  rounds : List Bool
  now : Instant
  reads : List Bytes
  failsAt : Option Nat

namespace Turn

/-- The commands and the links. -/
def head (t : Turn) : NodeM Unit := do
  forEach t.commands Command.body
  onRouter (unlessLink (serveLinks t.rounds))

/-- The two steps after that. -/
def tail (t : Turn) (n : Asker) : Asker := (n.settleRemote t.now).pumpTun t.reads t.failsAt

def body (t : Turn) : NodeM Unit := do
  t.head
  modify t.tail

end Turn

/-- `Node::run`. -/
def runTurns (turns : List Turn) : NodeM Unit := forEach turns Turn.body

/-- A turn that came to its end: the node when `settle_remote` is called, and after the turn. -/
structure Lap where
  served : Asker
  now : Instant
  after : Asker

/-- The turns of a run that came to their ends. -/
def laps : List Turn → Asker → List Lap :=
  visits (fun _ => true) Turn.body fun t n => onward (t.head n) fun _ n' => [⟨n', t.now, t.tail n'⟩]

section Run

variable {t : Turn} {n n' : Asker} {e : Exit}

theorem runTurns_cons_ok (h : t.head n = (.ok (), n')) (turns : List Turn) :
    runTurns (t :: turns) n = runTurns turns (t.tail n') ∧
      laps (t :: turns) n = ⟨n', t.now, t.tail n'⟩ :: laps turns (t.tail n') := by
  have hbody : t.body n = (.ok (), t.tail n') := run_bind_ok h
  constructor
  · exact run_bind_ok hbody
  · simp only [laps, visits, h, hbody, onward, if_true]
    rfl

theorem runTurns_cons_error (h : t.head n = (.error e, n')) (turns : List Turn) :
    runTurns (t :: turns) n = (.error e, n') ∧ laps (t :: turns) n = [] := by
  have hbody : t.body n = (.error e, n') := run_bind_error h
  constructor
  · exact run_bind_error hbody
  · simp only [laps, visits, h, hbody, onward]
    rfl

end Run

/-! ## What a step does to the questions and their answers -/

/-- The router has filed `more`. -/
structure Arrives (n n' : Asker) (more : List (Key × Bytes)) : Prop where
  pending : n'.pending = n.pending
  handed : n'.handed = n.handed
  protoInbox : n'.protoInbox = n.protoInbox ++ more
  filed : n'.filed = n.filed ++ more
  places : n'.places = n.places ++ List.range' n.filed.length more.length
  responses : ∀ x ∈ more, isResponse x.2 = true

variable {n n' : Asker} {α : Type}

theorem onRouter_arrives {opens : Prop} {m : RouterM α} (hm : (filing opens).Allows m)
    (n : Asker) :
    ∃ more, Arrives n (onRouter m n).2 more ∧ (more ≠ [] → opens) := by
  obtain ⟨more, hproto, hopens, hresponses⟩ := (Filed.of_allows hm n.bridge.world).proto
  have hdrop : (m n.bridge.world).2.router.protoInbox.drop n.protoInbox.length = more := by
    rw [hproto]
    exact List.drop_left
  refine ⟨more, ⟨rfl, rfl, hproto, ?_, ?_, hresponses⟩, hopens⟩
  · show n.filed ++ List.drop _ _ = _
    rw [hdrop]
  · show n.places ++ List.range' _ (List.drop _ _).length = _
    rw [hdrop]

/-- What holds of the marks at every time. -/
structure Sound (n : Asker) : Prop where
  length : n.places.length = n.protoInbox.length
  stamped : ∀ y ∈ n.stamped, n.filed[y.2]? = some y.1
  handed : ∀ h ∈ n.handed, h.1.fits h.2.1 = true ∧ n.filed[h.2.2]? = some h.2.1
  once : (n.handed.map (·.2.2) ++ n.places).Nodup
  responses : ∀ x ∈ n.protoInbox, isResponse x.2 = true

namespace Sound

theorem stamped_fst (h : Sound n) : n.stamped.map Prod.fst = n.protoInbox :=
  List.map_fst_zip h.length.ge

theorem stamped_snd (h : Sound n) : n.stamped.map Prod.snd = n.places :=
  List.map_snd_zip h.length.le

omit [Crypto] in
theorem place_lt {l : List (Key × Bytes)} {i : Nat} {x : Key × Bytes} (h : l[i]? = some x) :
    i < l.length := (List.getElem?_eq_some_iff.mp h).1

/-- The places that are in use are places. -/
theorem used_lt (h : Sound n) : ∀ i ∈ n.handed.map (·.2.2) ++ n.places, i < n.filed.length := by
  intro i hi
  rcases List.mem_append.mp hi with hi | hi
  · obtain ⟨x, hx, rfl⟩ := List.mem_map.mp hi
    exact place_lt (h.handed x hx).2
  · rw [← h.stamped_snd] at hi
    obtain ⟨y, hy, rfl⟩ := List.mem_map.mp hi
    exact place_lt (h.stamped y hy)

theorem init (seed : Key) (env : Env) (localAddr : Option Address) :
    Sound (.init seed env localAddr) where
  length := rfl
  stamped _ hy := absurd hy List.not_mem_nil
  handed _ hh := absurd hh List.not_mem_nil
  once := List.nodup_nil
  responses _ hx := absurd hx List.not_mem_nil

end Sound

variable {more : List (Key × Bytes)}

theorem Arrives.stamped (h : Arrives n n' more) (hn : Sound n) :
    n'.stamped = n.stamped ++ more.zip (List.range' n.filed.length more.length) := by
  rw [Asker.stamped, h.protoInbox, h.places, List.zip_append hn.length.symm]
  rfl

omit [Crypto] in
theorem mem_zip_range' {l : List α} {s : Nat} {y : α × Nat}
    (h : y ∈ l.zip (List.range' s l.length)) : s ≤ y.2 ∧ l[y.2 - s]? = some y.1 := by
  rw [← List.zipIdx_eq_zip_range'] at h
  exact List.mem_zipIdx_iff_le_and_getElem?_sub.mp h

theorem Sound.arrives (hn : Sound n) (h : Arrives n n' more) : Sound n' where
  length := by
    rw [h.places, h.protoInbox, List.length_append, List.length_append, List.length_range',
      hn.length]
  stamped y hy := by
    rw [h.stamped hn] at hy
    rw [h.filed]
    rcases List.mem_append.mp hy with hy | hy
    · have hplace := hn.stamped y hy
      rw [List.getElem?_append_left (place_lt hplace), hplace]
    · obtain ⟨hle, hplace⟩ := mem_zip_range' hy
      rw [List.getElem?_append_right hle, hplace]
  handed x hx := by
    rw [h.handed] at hx
    obtain ⟨hfits, hplace⟩ := hn.handed x hx
    refine ⟨hfits, ?_⟩
    rw [h.filed, List.getElem?_append_left (place_lt hplace), hplace]
  once := by
    rw [h.handed, h.places, ← List.append_assoc]
    refine List.nodup_append.mpr ⟨hn.once, List.nodup_range', fun i hi j hj => ?_⟩
    have hlt := hn.used_lt i hi
    have hle := (List.mem_range'_1.mp hj).1
    omega
  responses x hx := by
    rw [h.protoInbox] at hx
    rcases List.mem_append.mp hx with hx | hx
    · exact hn.responses x hx
    · exact h.responses x hx

/-- The two ways in which `settle_remote` is run agree. -/
theorem Sound.settle_eq (hn : Sound n) (now : Instant) :
    handOut (·.expired now) (·.fits) n.pending n.protoInbox =
      (handOut (fun q : Question => q.expired now) (fun q x => q.fits x.1) n.pending
        n.stamped).map Prod.fst := by
  conv_lhs => rw [← hn.stamped_fst]
  exact handOut_map Prod.fst (fun _ _ => rfl) n.pending n.stamped

theorem Sound.settleRemote (hn : Sound n) (now : Instant) : Sound (n.settleRemote now) := by
  obtain ⟨traced, htraced⟩ : ∃ traced, traced = handOut (fun q : Question => q.expired now)
      (fun q x => q.fits x.1) n.pending n.stamped := ⟨_, rfl⟩
  have hproto : (n.settleRemote now).protoInbox = traced.rest.map Prod.fst := by
    rw [htraced]
    exact congrArg Settlement.rest (hn.settle_eq now)
  have hplaces : (n.settleRemote now).places = traced.rest.map Prod.snd := by
    rw [htraced]
    rfl
  have hhanded : (n.settleRemote now).handed = n.handed ++ traced.handed := by
    rw [htraced]
    rfl
  have hrest : ∀ y ∈ traced.rest, y ∈ n.stamped := by
    rw [htraced]
    exact fun y hy => (handOut_rest_sublist _ _).subset hy
  refine ⟨?_, ?_, ?_, ?_, ?_⟩
  · rw [hplaces, hproto, List.length_map, List.length_map]
  · intro y hy
    rw [Asker.stamped, hproto, hplaces, ← List.zip_of_prod rfl rfl] at hy
    exact hn.stamped y (hrest y hy)
  · intro x hx
    rw [hhanded] at hx
    rcases List.mem_append.mp hx with hx | hx
    · exact hn.handed x hx
    · rw [htraced] at hx
      obtain ⟨-, hy, -, hfits⟩ := handOut_handed hx
      exact ⟨hfits, hn.stamped x.2 hy⟩
  · have hperm : (traced.handed.map (·.2.2) ++ traced.rest.map Prod.snd).Perm n.places := by
      have h : (traced.handed.map Prod.snd ++ traced.rest).Perm n.stamped := by
        rw [htraced]
        exact handOut_answers n.pending n.stamped
      have hplaces := h.map Prod.snd
      rwa [hn.stamped_snd, List.map_append, List.map_map] at hplaces
    rw [hhanded, hplaces, List.map_append, List.append_assoc]
    exact (hperm.append_left _).nodup_iff.mpr hn.once
  · intro x hx
    rw [hproto] at hx
    obtain ⟨y, hy, rfl⟩ := List.mem_map.mp hx
    refine hn.responses _ ?_
    rw [← hn.stamped_fst]
    exact List.mem_map_of_mem (hrest y hy)

/-- `pump_tun` takes all of the inbox if there is a device, and leaves the protocol inbox alone. -/
theorem pumpTun_inboxes (b : Bridge) (reads : List Bytes) (failsAt : Option Nat) :
    (b.pumpTun reads failsAt).world.router.protoInbox = b.world.router.protoInbox ∧
      (b.pumpTun reads failsAt).world.router.inbox =
        if b.tun.isSome then [] else b.world.router.inbox := by
  have hpump : ∀ (d : Device) (via : LinkId) (w : World),
      (d.pump via reads w).2.router.inbox = w.router.inbox ∧
        (d.pump via reads w).2.router.protoInbox = w.router.protoInbox := by
    intro d via w
    have hfiled : Filed False w (d.pump via reads w).2 :=
      .of_allows (.forEach fun _ _ => sendOrResolve_filing _ _ _) w
    exact hfiled.of_not id
  have hmesh : ∀ b : Bridge, (b.toMesh reads).world.router.inbox = b.world.router.inbox ∧
      (b.toMesh reads).world.router.protoInbox = b.world.router.protoInbox := by
    intro b
    unfold Bridge.toMesh
    split
    · rename_i d via _ _
      have h := hpump d via b.world
      split <;> rename_i hrun <;> rw [hrun] at h <;> exact h
    · exact ⟨rfl, rfl⟩
  have hkernel : ∀ b : Bridge, (b.toKernel failsAt).world = b.world := by
    intro b
    unfold Bridge.toKernel
    split
    · rfl
    · split <;> rfl
  unfold Bridge.pumpTun
  cases htun : b.tun with
  | none => exact ⟨rfl, rfl⟩
  | some d =>
    simp only [Option.isNone_some, Bool.false_eq_true, if_false, Option.isSome_some, if_true]
    rw [hkernel, (hmesh _).1, (hmesh _).2]
    simp only [Bridge.fromInbox, htun]
    exact ⟨rfl, rfl⟩

theorem Sound.pumpTun (hn : Sound n) (reads : List Bytes) (failsAt : Option Nat) :
    Sound (n.pumpTun reads failsAt) := by
  have hproto : (n.pumpTun reads failsAt).protoInbox = n.protoInbox :=
    (pumpTun_inboxes n.bridge reads failsAt).1
  have hstamped : (n.pumpTun reads failsAt).stamped = n.stamped := by
    rw [Asker.stamped, hproto]
    rfl
  refine ⟨?_, ?_, hn.handed, hn.once, ?_⟩
  · rw [hproto]
    exact hn.length
  · rw [hstamped]
    exact hn.stamped
  · rw [hproto]
    exact hn.responses

theorem Sound.tail (hn : Sound n) (t : Turn) : Sound (t.tail n) :=
  (hn.settleRemote t.now).pumpTun t.reads t.failsAt

/-! ## The commands and the links -/

section Filing

variable {opens : Prop}

theorem result_filing {m : RouterM α} (hm : (filing opens).Allows m) :
    (filing opens).Allows (result m) := by
  intro w hw
  obtain ⟨hwalk, -⟩ := hm w hw
  refine ⟨?_, fun _ _ h => h⟩
  obtain ⟨r, hr⟩ : ∃ r, m w = r := ⟨_, rfl⟩
  rw [hr] at hwalk
  obtain ⟨(e | _ | _) | _, v⟩ := r
  · rw [result_err hr]
    exact hwalk
  · rw [result_abort hr rfl]
    exact hwalk
  · rw [result_abort hr rfl]
    exact hwalk
  · rw [result_ok hr]
    exact hwalk

theorem answered_filing {m : RouterM Unit} (hm : (filing opens).Allows m) :
    (filing opens).Allows (answered m) := .bind (result_filing hm) fun _ => .pure _

theorem unlessLink_filing {m : RouterM Unit} (hm : (filing opens).Allows m) :
    (filing opens).Allows (unlessLink m) := by
  refine .bind (result_filing hm) fun served => ?_
  cases served with
  | ok => exact .pure _
  | error e => exact .ite (.pure _) (exit_beside _)

theorem isPlain_filing {a : Action} (h : isPlain a = true) : (filing opens).Allows a.body := by
  cases a with
  | connect => exact connect_filing _ _ _
  | disconnect => exact disconnect_beside _
  | enqueue => exact .modify fun _ _ => .same rfl rfl
  | _ => cases h

end Filing

/-- Questions were sent. Nothing was filed. -/
structure Asks (n n' : Asker) : Prop where
  protoInbox : n'.protoInbox = n.protoInbox
  filed : n'.filed = n.filed
  places : n'.places = n.places
  handed : n'.handed = n.handed
  pending : ∀ q ∈ n'.pending, q ∈ n.pending ∨
    q.before = n.filed.length ∧ (q.met = true ↔ ∃ x ∈ n.protoInbox, q.fits x = true)

namespace Asks

theorem refl (n : Asker) : Asks n n := ⟨rfl, rfl, rfl, rfl, fun _ hq => .inl hq⟩

theorem trans {n'' : Asker} (h : Asks n n') (h' : Asks n' n'') : Asks n n'' where
  protoInbox := h'.protoInbox.trans h.protoInbox
  filed := h'.filed.trans h.filed
  places := h'.places.trans h.places
  handed := h'.handed.trans h.handed
  pending q hq := by
    rcases h'.pending q hq with hq | hq
    · exact h.pending q hq
    · rw [h.filed, h.protoInbox] at hq
      exact .inr hq

theorem onRouter {m : RouterM α} (hm : (filing False).Allows m) (n : Asker) :
    Asks n (onRouter m n).2 := by
  obtain ⟨more, h, hnone⟩ := onRouter_arrives hm n
  have hmore : more = [] := by_contra fun hne => hnone hne
  subst hmore
  refine ⟨?_, ?_, ?_, h.handed, fun q hq => .inl (h.pending ▸ hq)⟩
  · rw [h.protoInbox, List.append_nil]
  · rw [h.filed, List.append_nil]
  · rw [h.places]
    exact List.append_nil _

theorem ask (n : Asker) (q : PendingRemote) : Asks n (n.ask q) := by
  refine ⟨rfl, rfl, rfl, rfl, fun q' hq' => ?_⟩
  rcases List.mem_append.mp (show q' ∈ n.pending ++ [_] from hq') with hq' | hq'
  · exact .inl hq'
  · rw [List.mem_singleton.mp hq']
    exact .inr ⟨rfl, List.any_eq_true⟩

theorem command (c : Command) (n : Asker) : Asks n (c.body n).2 := by
  cases c with
  | router a => exact onRouter (answered_filing (isPlain_filing a.2)) n
  | remote q =>
    have hsent := onRouter (result_filing (protoSend_filing netSend_filing q.key q.what.request)) n
    refine snd_bind hsent fun sent n' _ hn' => ?_
    cases sent with
    | ok => exact hn'.trans (ask n' q)
    | error => exact hn'

theorem sound (h : Asks n n') (hn : Sound n) : Sound n' := by
  have hstamped : n'.stamped = n.stamped := by rw [Asker.stamped, h.protoInbox, h.places]; rfl
  refine ⟨?_, ?_, ?_, ?_, ?_⟩
  · rw [h.places, h.protoInbox, hn.length]
  · rw [hstamped, h.filed]
    exact hn.stamped
  · rw [h.handed, h.filed]
    exact hn.handed
  · rw [h.handed, h.places]
    exact hn.once
  · rw [h.protoInbox]
    exact hn.responses

end Asks

/-- The first part of a turn: questions are sent, and then payloads are filed. -/
theorem Turn.head_spec (t : Turn) (n : Asker) :
    ∃ n₁ more, Asks n n₁ ∧ Arrives n₁ (t.head n).2 more := by
  have hasks : Asks n (forEach t.commands Command.body n).2 :=
    snd_forEach (.refl n) fun c _ n' hn' => hn'.trans (.command c n')
  obtain ⟨r, hr⟩ : ∃ r, forEach t.commands Command.body n = r := ⟨_, rfl⟩
  rw [hr] at hasks
  obtain ⟨e | _, n₁⟩ := r
  · refine ⟨n₁, [], hasks, ?_⟩
    rw [Turn.head, run_bind_error hr]
    exact ⟨rfl, rfl, (List.append_nil _).symm, (List.append_nil _).symm, (List.append_nil _).symm,
      fun _ hx => absurd hx List.not_mem_nil⟩
  · obtain ⟨more, harrives, -⟩ :=
      onRouter_arrives (unlessLink_filing (serveLinks_filing trivial t.rounds)) n₁
    rw [Turn.head, run_bind_ok hr]
    exact ⟨n₁, more, hasks, harrives⟩

theorem Sound.head (hn : Sound n) (t : Turn) : Sound (t.head n).2 := by
  obtain ⟨n₁, more, hasks, harrives⟩ := t.head_spec n
  exact (hasks.sound hn).arrives harrives

/-- The marks are right whenever `settle_remote` is called, and after every run. -/
theorem Sound.laps (hn : Sound n) (turns : List Turn) :
    (∀ lap ∈ laps turns n, Sound lap.served ∧ ∃ t : Turn, lap.now = t.now ∧
      lap.after = t.tail lap.served) ∧ Sound (runTurns turns n).2 := by
  induction turns generalizing n with
  | nil => exact ⟨fun _ h => absurd h List.not_mem_nil, hn⟩
  | cons t turns ih =>
    have hhead := hn.head t
    obtain ⟨r, hr⟩ : ∃ r, t.head n = r := ⟨_, rfl⟩
    rw [hr] at hhead
    obtain ⟨e | _, n'⟩ := r
    · obtain ⟨hrun, hlaps⟩ := runTurns_cons_error hr turns
      rw [hrun, hlaps]
      exact ⟨fun _ h => absurd h List.not_mem_nil, hhead⟩
    · obtain ⟨hrun, hlaps⟩ := runTurns_cons_ok hr turns
      obtain ⟨hrest, hend⟩ := ih (hhead.tail t)
      rw [hrun, hlaps]
      refine ⟨fun lap hlap => ?_, hend⟩
      rcases List.mem_cons.mp hlap with rfl | hlap
      · exact ⟨hhead, t, rfl, rfl⟩
      · exact hrest lap hlap

/-! ## Fresh answers -/

/-- No question that waits can use what is there, and none could when it was sent. -/
def Rested (n : Asker) : Prop :=
  ∀ q ∈ n.pending, q.before ≤ n.filed.length ∧ q.met = false ∧ ∀ x ∈ n.protoInbox, q.fits x = false

/-- Every payload that was handed to a question arrived after the question was sent. -/
def Fresh (n : Asker) : Prop := ∀ h ∈ n.handed, h.1.before ≤ h.2.2

/-- The questions that found an answer in the inbox when they were sent have expired. -/
def MetExpired (n : Asker) (now : Instant) : Prop :=
  ∀ q ∈ n.pending, q.met = true → q.expired now = true

section Settle

variable {n₁ : Asker} (hrested : Rested n) (hasks : Asks n n₁) (hsound : Sound n₁)
  (harrives : Arrives n₁ n' more)

include hrested hasks in
/-- A question that finds an answer in the inbox when the links are served has just been sent. -/
theorem Asks.asked : ∀ q ∈ n₁.pending, q.before ≤ n₁.filed.length ∧
    (q.met = true ↔ ∃ x ∈ n₁.protoInbox, q.fits x = true) ∧
    (q.met = true → q.before = n₁.filed.length) := by
  intro q hq
  rw [hasks.filed, hasks.protoInbox]
  rcases hasks.pending q hq with hq | ⟨hbefore, hmet⟩
  · obtain ⟨hle, hmet, hnone⟩ := hrested q hq
    refine ⟨hle, ⟨fun h => ?_, fun ⟨x, hx, hfits⟩ => ?_⟩, fun h => ?_⟩
    · rw [hmet] at h
      cases h
    · rw [hnone x hx] at hfits
      cases hfits
    · rw [hmet] at h
      cases h
  · exact ⟨hbefore.le, hmet, fun _ => hbefore⟩

include hrested hasks harrives

include hsound in
/-- `settle_remote` hands out something old if and only if a question that found an answer when it
was sent is still alive. -/
theorem settle_fresh_iff (now : Instant) (hfresh : Fresh n) :
    Fresh (n'.settleRemote now) ↔ MetExpired n' now := by
  have hasked := hasks.asked hrested
  have hlate : ∀ y ∈ more.zip (List.range' n₁.filed.length more.length), n₁.filed.length ≤ y.2 :=
    fun y hy => (mem_zip_range' hy).1
  have hearly : ∀ y ∈ n₁.stamped, y.2 < n₁.filed.length :=
    fun y hy => Sound.place_lt (hsound.stamped y hy)
  have hfst : ∀ y ∈ n₁.stamped, y.1 ∈ n₁.protoInbox := by
    intro y hy
    rw [← hsound.stamped_fst]
    exact List.mem_map_of_mem hy
  have hhanded : (n'.settleRemote now).handed = n.handed ++
      (handOut (fun q : Question => q.expired now) (fun q x => q.fits x.1) n₁.pending (n₁.stamped ++
        more.zip (List.range' n₁.filed.length more.length))).handed := by
    show n'.handed ++ (handOut _ _ n'.pending n'.stamped).handed = _
    rw [harrives.handed, harrives.pending, harrives.stamped hsound, hasks.handed]
  rw [Fresh, MetExpired, hhanded, harrives.pending]
  constructor
  · intro hall q hq hmet
    by_contra hlive
    obtain ⟨x, hx, hfits⟩ := ((hasked q hq).2.1).mp hmet
    rw [← hsound.stamped_fst] at hx
    obtain ⟨y, hy, rfl⟩ := List.mem_map.mp hx
    obtain ⟨h, hh, hold⟩ : ∃ h ∈ (handOut (fun q : Question => q.expired now)
        (fun q x => q.fits x.1) n₁.pending (n₁.stamped ++
          more.zip (List.range' n₁.filed.length more.length))).handed, h.2 ∈ n₁.stamped :=
      handOut_takes_early ⟨q, hq, Bool.eq_false_iff.mpr hlive, y, hy, hfits⟩
    obtain ⟨hq', -, -, hfits'⟩ := handOut_handed hh
    -- the question that took the old payload has just been sent
    have hmet' := ((hasked h.1 hq').2.1).mpr ⟨h.2.1, hfst _ hold, hfits'⟩
    have hbefore := (hasked h.1 hq').2.2 hmet'
    have hle := hall h (List.mem_append_right _ hh)
    have hlt := hearly h.2 hold
    omega
  · intro hexpired h hh
    rcases List.mem_append.mp hh with hh | hh
    · exact hfresh h hh
    · obtain ⟨hq, hy, hlive, hfits⟩ := handOut_handed hh
      have hle := (hasked h.1 hq).1
      rcases List.mem_append.mp hy with hy | hy
      · have hmet := ((hasked h.1 hq).2.1).mpr ⟨h.2.1, hfst _ hy, hfits⟩
        rw [hexpired h.1 hq hmet] at hlive
        cases hlive
      · exact hle.trans (hlate h.2 hy)

/-- If it does not, the next turn begins as this one did. -/
theorem rested_settle (now : Instant) (hexpired : MetExpired n' now) :
    Rested (n'.settleRemote now) := by
  have hasked := hasks.asked hrested
  intro q hq
  obtain ⟨hq, hlive, hnone⟩ := handOut_still hq
  rw [harrives.pending] at hq
  refine ⟨?_, ?_, hnone⟩
  · refine (hasked q hq).1.trans ?_
    show n₁.filed.length ≤ n'.filed.length
    rw [harrives.filed, List.length_append]
    exact Nat.le_add_right _ _
  · by_contra hmet
    rw [hexpired q (by rwa [harrives.pending]) (Bool.eq_true_of_not_eq_false hmet)] at hlive
    cases hlive

end Settle

theorem Rested.pumpTun (h : Rested n) (reads : List Bytes) (failsAt : Option Nat) :
    Rested (n.pumpTun reads failsAt) := by
  intro q hq
  obtain ⟨hle, hmet, hnone⟩ := h q hq
  refine ⟨hle, hmet, ?_⟩
  show ∀ x ∈ (n.bridge.pumpTun reads failsAt).world.router.protoInbox, _
  rw [(pumpTun_inboxes n.bridge reads failsAt).1]
  exact hnone

/-- What was handed out stays in the record. -/
theorem handed_kept (turns : List Turn) (n : Asker) :
    n.handed <+: (runTurns turns n).2.handed := by
  refine snd_forEach (P := fun n' : Asker => n.handed <+: n'.handed) List.prefix_rfl
    fun t _ n₀ h₀ => ?_
  obtain ⟨n₁, more, hasks, harrives⟩ := t.head_spec n₀
  have hhead : (t.head n₀).2.handed = n₀.handed := harrives.handed.trans hasks.handed
  refine snd_bind (P := fun n' : Asker => n.handed <+: n'.handed) (hhead ▸ h₀) fun _ n₂ _ h₂ => ?_
  exact h₂.trans (List.prefix_append _ _)

theorem fresh_run_iff (hrested : Rested n) (hsound : Sound n) (hfresh : Fresh n)
    (turns : List Turn) :
    Fresh (runTurns turns n).2 ↔ ∀ lap ∈ laps turns n, MetExpired lap.served lap.now := by
  induction turns generalizing n with
  | nil => exact iff_of_true hfresh fun _ h => absurd h List.not_mem_nil
  | cons t turns ih =>
    obtain ⟨n₁, more, hasks, harrives⟩ := t.head_spec n
    have hsound₁ := hasks.sound hsound
    obtain ⟨r, hr⟩ : ∃ r, t.head n = r := ⟨_, rfl⟩
    rw [hr] at harrives
    obtain ⟨e | _, n'⟩ := r
    · obtain ⟨hrun, hlaps⟩ := runTurns_cons_error hr turns
      rw [hrun, hlaps]
      refine iff_of_true ?_ fun _ h => absurd h List.not_mem_nil
      show ∀ h ∈ n'.handed, _
      rw [harrives.handed, hasks.handed]
      exact hfresh
    · obtain ⟨hrun, hlaps⟩ := runTurns_cons_ok hr turns
      have hstep := settle_fresh_iff hrested hasks hsound₁ harrives t.now hfresh
      rw [hrun, hlaps, List.forall_mem_cons]
      by_cases hexpired : MetExpired n' t.now
      · have hrested' := (rested_settle hrested hasks harrives t.now hexpired).pumpTun
          t.reads t.failsAt
        have hsound' := (hsound₁.arrives harrives).tail t
        exact (ih hrested' hsound' (hstep.mpr hexpired)).trans (and_iff_right hexpired).symm
      · refine iff_of_false (fun hend => hexpired (hstep.mp fun h hh => ?_)) fun h => hexpired h.1
        exact hend h ((handed_kept turns _).subset hh)

/-- What `settle_remote` gave to the questions of a run: each payload had been filed, came from the
key that was asked, is of the type that was asked for, and arrived after the question was sent. No
payload went to two questions. -/
structure AnsweredFresh (n : Asker) : Prop where
  filed : ∀ h ∈ n.handed, n.filed[h.2.2]? = some h.2.1
  key : ∀ h ∈ n.handed, h.2.1.1 = h.1.key
  type : ∀ h ∈ n.handed, isAnswer h.2.1.2 h.1.what.answerTag = true
  fresh : Fresh n
  once : (n.handed.map (·.2.2)).Nodup

/-- **A question gets a fresh answer in every run if and only if every question that was sent while
the protocol inbox held an answer to it has expired whenever `settle_remote` is called.** The key
and the type are right in any case, and no answer is used twice. -/
theorem answeredFresh_iff (seed : Key) (env : Env) (localAddr : Option Address)
    (turns : List Turn) :
    AnsweredFresh (runTurns turns (.init seed env localAddr)).2 ↔
      ∀ lap ∈ laps turns (.init seed env localAddr), MetExpired lap.served lap.now := by
  have hinit := Sound.init seed env localAddr
  have hfresh := fresh_run_iff (n := .init seed env localAddr)
    (fun _ hq => absurd hq List.not_mem_nil) hinit (fun _ hh => absurd hh List.not_mem_nil) turns
  have hend := (hinit.laps turns).2
  rw [← hfresh]
  refine ⟨AnsweredFresh.fresh, fun h => ⟨fun x hx => (hend.handed x hx).2, ?_, ?_, h, ?_⟩⟩
  · intro x hx
    exact (of_decide_eq_true (hend.handed x hx).1).1
  · intro x hx
    exact (of_decide_eq_true (hend.handed x hx).1).2
  · exact hend.once.of_append_left

/-! ## Empty inboxes -/

/-- The inbox is empty, and the protocol inbox has only what a question that waits could use. -/
def Drained (n : Asker) : Prop :=
  n.inbox = [] ∧ ∀ x ∈ n.protoInbox, ∃ q ∈ n.pending, q.fits x = true

/-- There is a device, or nothing for it; and for every key and every question there are as many
questions that are alive as there are answers. -/
def Covered (n : Asker) (now : Instant) : Prop :=
  (n.bridge.tun.isSome = true ∨ n.inbox = []) ∧
    ∀ key what, (n.protoInbox.countP fun x => x.1 = key ∧ answers x.2 = some what) ≤
      n.pending.countP fun q => !q.expired now && decide (q.key = key ∧ q.what = what)

/-- What is left in the protocol inbox is of no use to the questions that are left. -/
theorem settleRemote_useful_iff (hn : Sound n) (now : Instant) :
    (∀ x ∈ (n.settleRemote now).protoInbox, ∃ q ∈ (n.settleRemote now).pending, q.fits x = true) ↔
      ∀ key what, (n.protoInbox.countP fun x => x.1 = key ∧ answers x.2 = some what) ≤
        n.pending.countP fun q => !q.expired now && decide (q.key = key ∧ q.what = what) := by
  have hnil : (handOut (fun q : Question => q.expired now) (fun q => q.fits) n.pending
      n.protoInbox).rest = [] ↔ ∀ c, (n.protoInbox.countP fun x => (x.1, answers x.2) = c) ≤
        n.pending.countP fun q => !q.expired now && q.asks = c :=
    handOut_rest_eq_nil_iff (fun q x => q.fits_iff x) n.pending n.protoInbox
  have huseless : (∀ x ∈ (n.settleRemote now).protoInbox,
      ∃ q ∈ (n.settleRemote now).pending, q.fits x = true) ↔
        (handOut (fun q : Question => q.expired now) (fun q => q.fits) n.pending
          n.protoInbox).rest = [] := by
    constructor
    · intro h
      refine List.eq_nil_iff_forall_not_mem.mpr fun x hx => ?_
      obtain ⟨q, hq, hfits⟩ := h x hx
      rw [(handOut_still hq).2.2 x hx] at hfits
      cases hfits
    · intro h x hx
      rw [show (n.settleRemote now).protoInbox = [] from h] at hx
      cases hx
  have hquestions : ∀ key what, (n.pending.countP fun q => !q.expired now &&
      decide (q.asks = (key, some what))) = n.pending.countP fun q => !q.expired now &&
        decide (q.key = key ∧ q.what = what) := by
    intro key what
    refine List.countP_congr fun q _ => ?_
    simp [PendingRemote.asks]
  have hpayloads : ∀ key what, (n.protoInbox.countP fun x =>
      decide ((x.1, answers x.2) = (key, some what))) =
        n.protoInbox.countP fun x => decide (x.1 = key ∧ answers x.2 = some what) := by
    intro key what
    refine List.countP_congr fun x _ => ?_
    simp
  rw [huseless, hnil]
  constructor
  · intro h key what
    rw [← hpayloads, ← hquestions]
    exact h (key, some what)
  · intro h kind
    obtain ⟨key, _ | what⟩ := kind
    · -- every payload that was filed answers something
      have hzero :
          (n.protoInbox.countP fun x => decide ((x.1, answers x.2) = (key, none))) = 0 := by
        refine List.countP_eq_zero.mpr fun x hx hnone => ?_
        obtain ⟨what, hwhat⟩ := answers_of_isResponse (hn.responses x hx)
        have hnone := (Prod.mk.inj (of_decide_eq_true hnone)).2
        rw [hwhat] at hnone
        cases hnone
      rw [hzero]
      exact Nat.zero_le _
    · rw [hpayloads, hquestions]
      exact h key what

theorem drained_tail_iff (hn : Sound n) (t : Turn) : Drained (t.tail n) ↔ Covered n t.now := by
  obtain ⟨hproto, hinbox⟩ :=
    pumpTun_inboxes (n.settleRemote t.now).bridge t.reads t.failsAt
  have hproto' : (t.tail n).protoInbox = (n.settleRemote t.now).protoInbox := hproto
  have hinbox' : (t.tail n).inbox = if n.bridge.tun.isSome then [] else n.inbox := hinbox
  rw [Drained, Covered, hproto', hinbox']
  refine and_congr ?_ (settleRemote_useful_iff hn t.now)
  cases n.bridge.tun with
  | none => simp
  | some d => simp

/-- **The inboxes are empty after every turn if and only if, whenever `settle_remote` is called,
there is a device or nothing for it, and at least as many live questions as answers for every key
and every kind of question.** -/
theorem drained_iff (seed : Key) (env : Env) (localAddr : Option Address) (turns : List Turn) :
    (∀ lap ∈ laps turns (.init seed env localAddr), Drained lap.after) ↔
      ∀ lap ∈ laps turns (.init seed env localAddr), Covered lap.served lap.now := by
  have hlaps := ((Sound.init seed env localAddr).laps turns).1
  refine forall₂_congr fun lap hlap => ?_
  obtain ⟨hsound, t, hnow, hafter⟩ := hlaps lap hlap
  rw [hafter, hnow]
  exact drained_tail_iff hsound t

end

/-! ## A response that nobody asked for -/

section

attribute [local instance] Sample.lenient

def turnOf (commands : List Command) : Turn := ⟨commands, [false], 0, [], none⟩

/-- The connection with the peer comes up, and its first frame is read. -/
def meeting : Turn := turnOf [.router ⟨.connect (highKey 0xa0) 0 true, rfl⟩]

/-- The peer opens a session. -/
def opening : Asker :=
  (runTurns [meeting] (.init (highKey 0x90)
    { Env.even 1 with reads := fun _ => .frame .traffic peerInit.bytes } none)).2

/-- The session of the peer after that, with the ack. -/
def openedSession : Option Session :=
  (opening.bridge.world.router.sess.sessions.lookup (highKey 0xa0)).map fun x =>
    let ack := x.1.makeInit 1000
    ((Session.forInit ack (peerKeys 0xc4) (peerKeys 0xc5) (peerKeys 0xc6)).adoptBuffered
      (peerKeys 0xc1) (peerKeys 0xc2)).handleAck ack (peerKeys 0xc7)

/-- A nodeinfo response and then a packet, in the session. -/
def sentInSession : Option (Bytes × Bytes) :=
  openedSession.map fun s =>
    let first := s.encrypt [packetTypeProto, protoNodeinfoRes, 0x30] (peerKeys 0xc8)
    (first.2, (first.1.encrypt [packetTypeTraffic, 0x60] (peerKeys 0xc9)).2)

/-- The peer sends them, one a turn, whether they were asked for or not. -/
def pushing : Env :=
  let sent := sentInSession.getD ([], [])
  { Env.even 1 with
    reads := fun n =>
      .frame .traffic <|
        if n < 28 then peerInit.bytes
        else if n < 40 then (fromPeer sent.1).bytes
        else (fromPeer sent.2).bytes }

def nodeInfoQuestion : Command := .remote ⟨highKey 0xa0, .nodeInfo, 0⟩

/-- The response came in the second turn and the question was sent in the third. -/
theorem answered_stale :
    ¬ AnsweredFresh (runTurns [meeting, turnOf [], turnOf [nodeInfoQuestion]]
      (.init (highKey 0x90) pushing none)).2 := by
  intro h
  have hstale : (runTurns [meeting, turnOf [], turnOf [nodeInfoQuestion]]
      (.init (highKey 0x90) pushing none)).2.handed.map (fun h => (h.1.before, h.2.2)) =
        [(1, 0)] := by
    decide +kernel
  obtain ⟨x, hx, heq⟩ := List.mem_map.mp (hstale ▸ List.mem_singleton_self (1, 0))
  obtain ⟨hbefore, hplace⟩ := Prod.mk.inj heq
  have hle := h.fresh x hx
  omega

/-- A question that was sent before the response came. -/
theorem answered_in_time :
    AnsweredFresh (runTurns [meeting, turnOf [nodeInfoQuestion]]
      (.init (highKey 0x90) pushing none)).2 := by
  refine (answeredFresh_iff _ _ _ _).mpr ?_
  show ∀ lap ∈ laps _ _, ∀ q ∈ lap.served.pending, q.met = true → q.expired lap.now = true
  decide +kernel

/-- The response stays, as no question waits for it, and the packet, as there is no device. -/
theorem inboxes_kept :
    ¬ ∀ lap ∈ laps [meeting, turnOf [], turnOf []] (.init (highKey 0x90) pushing none),
      Drained lap.after := by
  intro h
  have hkept : (laps [meeting, turnOf [], turnOf []] (.init (highKey 0x90) pushing none)).map
      (fun lap => (lap.after.inbox.length, lap.after.protoInbox.length, lap.after.pending.length)) =
        [(0, 0, 0), (0, 1, 0), (1, 1, 0)] := by
    decide +kernel
  have hlast : (1, 1, 0) ∈ [((0 : Nat), (0 : Nat), (0 : Nat)), (0, 1, 0), (1, 1, 0)] := by simp
  rw [← hkept] at hlast
  obtain ⟨lap, hlap, heq⟩ := List.mem_map.mp hlast
  have hinbox := (Prod.mk.inj heq).1
  rw [(h lap hlap).1] at hinbox
  cases hinbox

/-- Every answer has its question. -/
theorem covered_of_asked {n : Asker} {now : Instant} (hinbox : n.inbox = [])
    (hasked : (n.protoInbox.map fun x => (x.1, answers x.2)) =
      (n.pending.filter fun q => !q.expired now).map fun q => q.asks) : Covered n now := by
  refine ⟨.inr hinbox, fun key what => ?_⟩
  have hcount := congrArg (List.countP fun c => decide (c = (key, some what))) hasked
  rw [List.countP_map, List.countP_map, List.countP_filter] at hcount
  refine le_of_eq ((List.countP_congr fun x _ => ?_).trans
    (hcount.trans (List.countP_congr fun q _ => ?_)))
  · simp
  · simp [PendingRemote.asks, and_comm]

/-- A run in which a question gets its answer. -/
theorem drained_answered :
    (runTurns [meeting, turnOf [nodeInfoQuestion]]
        (.init (highKey 0x90) pushing none)).2.handed.length = 1 ∧
      ∀ lap ∈ laps [meeting, turnOf [nodeInfoQuestion]] (.init (highKey 0x90) pushing none),
        Drained lap.after := by
  refine ⟨by decide +kernel, (drained_iff _ _ _ _).mpr fun lap hlap => ?_⟩
  have hasked : (laps [meeting, turnOf [nodeInfoQuestion]]
      (.init (highKey 0x90) pushing none)).all (fun lap => lap.served.inbox.isEmpty &&
        decide ((lap.served.protoInbox.map fun x => (x.1, answers x.2)) =
          (lap.served.pending.filter fun q => !q.expired lap.now).map fun q => q.asks)) =
        true := by
    decide +kernel
  have hlap := List.all_eq_true.mp hasked lap hlap
  rw [Bool.and_eq_true, List.isEmpty_iff, decide_eq_true_eq] at hlap
  exact covered_of_asked hlap.1 hlap.2

end

end Roots.Client
