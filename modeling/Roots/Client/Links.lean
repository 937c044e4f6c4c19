import Roots.Lib.Amend
import Roots.Router.State

/-!
# Roots.Client.Links

The link manager of the client (`client/src/links.rs`): one row for each peering, with its
redial clock (`src/supervisor.rs`) and the link it has, if any. A row is named by its URI
without the query and by its source interface (`Info`), and **no two rows have the same
name**: a table in which two do cannot be written down (`Links.distinct`).

`parse_link_uri` only says whether a URI is refused and what its `maxbackoff` is; nothing
here depends on how it does that, so it is a parameter. `Instant::now()` is an argument.
-/

namespace Roots.Client

/-- `parse_link_uri`, as far as the link manager reads it: why a URI is refused, or its
`max_backoff`. -/
class UriParser where
  parseLinkUri : Text → Except Text (Option Nat)

/-! ## Redialling -/

/-- `DEFAULT_MAX_BACKOFF`. -/
def defaultMaxBackoff : Nat := seconds (2 ^ 12)

/-- `backoff_delay`. -/
def backoffDelay (failures maxBackoff : Nat) : Nat := min (seconds (2 ^ min failures 32)) maxBackoff

/-- `SupervisedPeer`. -/
structure SupervisedPeer where
  uri : Text
  failures : Nat
  nextRetry : Instant

namespace SupervisedPeer

def new (uri : Text) (now : Instant) : SupervisedPeer := ⟨uri, 0, now⟩

/-- `record_success`. -/
def recordSuccess (s : SupervisedPeer) (now : Instant) : SupervisedPeer :=
  { s with failures := 0, nextRetry := now }

/-- `record_failure`. -/
def recordFailure (s : SupervisedPeer) (now : Instant) (cap : Nat) : SupervisedPeer :=
  let failures := min (s.failures + 1) 32
  { s with failures, nextRetry := now + backoffDelay failures cap }

def due (s : SupervisedPeer) (now : Instant) (liveUris : List Text) : Bool :=
  s.nextRetry ≤ now ∧ s.uri ∉ liveUris

end SupervisedPeer

/-- `backoff_cap`. -/
def backoffCap [UriParser] (uri : Text) : Nat :=
  match UriParser.parseLinkUri uri with
  | .ok (some cap) => cap
  | _ => defaultMaxBackoff

/-! ## Rows -/

/-- `link_id`: the URI up to its query. -/
def linkId (uri : Text) : Text := uri.takeWhile (· ≠ '?')

/-- What names a row. -/
structure Info where
  linkId : Text
  sintf : Text
deriving DecidableEq

def Info.new (uri sintf : Text) : Info := ⟨Client.linkId uri, sintf⟩

inductive LinkKind where
  | persistent
  | ephemeral
  | incoming
deriving DecidableEq

inductive LinkError where
  | alreadyConfigured
  | notConfigured
  | invalidUri (message : Text)
deriving DecidableEq

/-- One peering. `dialing` is the token of the dial that is under way. -/
structure Entry where
  uri : Text
  sintf : Text
  kind : LinkKind
  redial : SupervisedPeer
  maxBackoff : Nat
  live : Option (LinkId × Key)
  lastError : Option Text
  errAt : Option Instant
  dialing : Option UInt64

namespace Entry

def info (e : Entry) : Info := .new e.uri e.sintf

/-- The row names a link. -/
def Names (e : Entry) (id : LinkId) : Prop := e.live.map Prod.fst = some id

instance (e : Entry) (id : LinkId) : Decidable (e.Names id) :=
  inferInstanceAs (Decidable (_ = _))

/-- A row that has just been made. -/
def fresh [UriParser] (uri sintf : Text) (kind : LinkKind) (live : Option (LinkId × Key))
    (now : Instant) : Entry where
  uri := uri
  sintf := sintf
  kind := kind
  redial := .new uri now
  maxBackoff := backoffCap uri
  live := live
  lastError := none
  errAt := none
  dialing := none

/-- A dial for the row is due: `start_due` passes over all others. -/
def waits (e : Entry) (now : Instant) : Bool :=
  ¬ (e.kind = .incoming ∨ e.live.isSome ∨ e.dialing.isSome ∨ ¬ e.redial.due now [])

/-- What `mark_failed` makes of the row: an ephemeral one goes. -/
def failed (now : Instant) (err : Text) (e : Entry) : Option Entry :=
  if e.kind = .ephemeral then none
  else some { e with
    dialing := none
    live := none
    lastError := some err
    errAt := some now
    redial := e.redial.recordFailure now e.maxBackoff }

/-- What `mark_live` makes of the row. -/
def connected (now : Instant) (id : LinkId) (peer : Key) (e : Entry) : Option Entry :=
  some { e with
    dialing := none
    live := some (id, peer)
    lastError := none
    errAt := none
    redial := e.redial.recordSuccess now }

/-- What `accept` makes of a row that is there. -/
def accepted (id : LinkId) (peer : Key) (e : Entry) : Option Entry :=
  some { e with live := some (id, peer), lastError := none, errAt := none }

/-- What `add` makes of a row that is there: its next dial is due at once. -/
def kicked (now : Instant) (e : Entry) : Option Entry :=
  some { e with redial.nextRetry := now }

/-- What `note_liveness` makes of the row: one whose link is gone is redialled or goes. -/
def noted (links : LinkSet) (now : Instant) (e : Entry) : Option Entry :=
  match e.live with
  | none => some e
  | some (id, _) =>
      if id ∈ links.ids then some e
      else if e.kind = .persistent then
        some { e with live := none, redial := e.redial.recordFailure now e.maxBackoff }
      else none

/-! None of them changes the name of the row. -/

theorem failed_info {now : Instant} {err : Text} (e e' : Entry)
    (h : e.failed now err = some e') : e'.info = e.info := by
  unfold failed at h
  split at h
  · cases h
  · cases h
    rfl

theorem connected_info {now : Instant} {id : LinkId} {peer : Key} (e e' : Entry)
    (h : e.connected now id peer = some e') : e'.info = e.info := by
  cases h
  rfl

theorem accepted_info {id : LinkId} {peer : Key} (e e' : Entry)
    (h : e.accepted id peer = some e') : e'.info = e.info := by
  cases h
  rfl

theorem kicked_info {now : Instant} (e e' : Entry) (h : e.kicked now = some e') :
    e'.info = e.info := by
  cases h
  rfl

theorem noted_info {links : LinkSet} {now : Instant} {e e' : Entry}
    (h : e.noted links now = some e') : e'.info = e.info := by
  unfold noted at h
  split at h
  · cases h
    rfl
  · split_ifs at h <;> cases h <;> rfl

end Entry

/-! ## The table -/

/-- `Links`: the rows and the next token. -/
structure Links where
  entries : List Entry
  nextToken : UInt64
  distinct : (entries.map Entry.info).Nodup

namespace Links

def empty : Links := ⟨[], 0, List.nodup_nil⟩

/-- `find`. -/
def find (ls : Links) (uri sintf : Text) : Option Entry :=
  ls.entries.find? fun e => e.info = .new uri sintf

/-- The row a dial was made for (`entry_mut`). -/
def awaiting (ls : Links) (token : UInt64) : Option Entry :=
  ls.entries.find? fun e => e.dialing = some token

/-- The first row that matches is updated or goes, under the name it has. -/
def amend (ls : Links) (p : Entry → Bool) (f : Entry → Option Entry)
    (hf : ∀ e e', f e = some e' → e'.info = e.info) : Links where
  entries := Roots.amend p f ls.entries
  nextToken := ls.nextToken
  distinct := ls.distinct.sublist (map_amend_sublist hf)

/-- A row whose name is new is appended. -/
def push (ls : Links) (e : Entry) (h : ls.find e.uri e.sintf = none) : Links where
  entries := ls.entries ++ [e]
  nextToken := ls.nextToken
  distinct := by
    rw [List.map_append, List.map_singleton]
    refine ls.distinct.append (List.nodup_singleton _) fun info hmem hinfo => ?_
    obtain ⟨e', he', rfl⟩ := List.mem_map.mp hmem
    have hne := List.find?_eq_none.mp h e' he'
    exact hne (decide_eq_true (List.mem_singleton.mp hinfo))

section

variable [UriParser]

/-- `add`. -/
def add (ls : Links) (uri sintf : Text) (kind : LinkKind) (now : Instant) :
    Except LinkError Unit × Links :=
  match UriParser.parseLinkUri uri with
  | .error message => (.error (.invalidUri message), ls)
  | .ok _ =>
      if h : ls.find uri sintf = none then (.ok (), ls.push (.fresh uri sintf kind none now) h)
      else
        (.error .alreadyConfigured,
          ls.amend (fun e => e.info = .new uri sintf) (Entry.kicked now) Entry.kicked_info)

/-- `busy`. -/
def busy (ls : Links) (uri : Text) : Bool := (ls.find uri []).any fun e => e.live.isSome

/-- `accept`. -/
def accept (ls : Links) (uri : Text) (id : LinkId) (peer : Key) (now : Instant) : Links :=
  if h : ls.find uri [] = none then ls.push (.fresh uri [] .incoming (some (id, peer)) now) h
  else ls.amend (fun e => e.info = .new uri []) (Entry.accepted id peer) Entry.accepted_info

end

/-- `live_id`. -/
def liveId (ls : Links) (uri sintf : Text) : Option LinkId :=
  (ls.find uri sintf).bind fun e => e.live.map Prod.fst

/-- `remove`. -/
def remove (ls : Links) (uri sintf : Text) : Except LinkError Links :=
  match ls.find uri sintf with
  | none => .error .notConfigured
  | some _ =>
      .ok (ls.amend (fun e => e.info = .new uri sintf) (fun _ => none) fun _ _ h => by cases h)

/-- The loop of `start_due`: each dial that starts takes the next token. -/
def startFrom (now : Instant) : UInt64 → List Entry → List Entry × UInt64
  | token, [] => ([], token)
  | token, e :: entries =>
      if e.waits now then
        let (rest, next) := startFrom now (token + 1) entries
        ({ e with dialing := some token } :: rest, next)
      else
        let (rest, next) := startFrom now token entries
        (e :: rest, next)

theorem startFrom_info (now : Instant) (token : UInt64) (entries : List Entry) :
    (startFrom now token entries).1.map Entry.info = entries.map Entry.info := by
  induction entries generalizing token with
  | nil => rfl
  | cons e entries ih =>
    rw [startFrom]
    split
    · exact congrArg (e.info :: ·) (ih _)
    · exact congrArg (e.info :: ·) (ih _)

/-- `start_due`. The dials themselves run elsewhere and report back with their token. -/
def startDue (ls : Links) (now : Instant) : Links where
  entries := (startFrom now ls.nextToken ls.entries).1
  nextToken := (startFrom now ls.nextToken ls.entries).2
  distinct := startFrom_info now ls.nextToken ls.entries ▸ ls.distinct

/-- `mark_live`; the row is gone if it returns false. -/
def markLive (ls : Links) (token : UInt64) (id : LinkId) (peer : Key) (now : Instant) :
    Bool × Links :=
  ((ls.awaiting token).isSome,
    ls.amend (fun e => e.dialing = some token) (Entry.connected now id peer) Entry.connected_info)

/-- `mark_failed`. -/
def markFailed (ls : Links) (token : UInt64) (err : Text) (now : Instant) : Links :=
  ls.amend (fun e => e.dialing = some token) (Entry.failed now err) Entry.failed_info

/-- The loop of `note_liveness`; each row reads the clock for itself. -/
def noteFrom (links : LinkSet) (clock : Nat → Instant) : Nat → List Entry → List Entry
  | _, [] => []
  | i, e :: entries => (e.noted links (clock i)).toList ++ noteFrom links clock (i + 1) entries

theorem noteFrom_info (links : LinkSet) (clock : Nat → Instant) (i : Nat) (entries : List Entry) :
    ((noteFrom links clock i entries).map Entry.info).Sublist (entries.map Entry.info) := by
  induction entries generalizing i with
  | nil => exact .refl _
  | cons e entries ih =>
    rw [noteFrom, List.map_append, List.map_cons]
    cases hnoted : e.noted links (clock i) with
    | none => exact (ih (i + 1)).cons _
    | some e' =>
      rw [Option.toList_some, List.map_singleton, Entry.noted_info hnoted]
      exact (ih (i + 1)).cons_cons _

/-- `note_liveness`. -/
def noteLiveness (ls : Links) (links : LinkSet) (clock : Nat → Instant) : Links where
  entries := noteFrom links clock 0 ls.entries
  nextToken := ls.nextToken
  distinct := ls.distinct.sublist (noteFrom_info links clock 0 ls.entries)

end Links

end Roots.Client
