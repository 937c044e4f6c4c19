import Roots.Lib.Settle
import Roots.Router.Broken
import Roots.Router.Filing
import Roots.Lib.Str

/-!
# Roots.Client.Remote

The questions that an operator puts to other nodes: `settle_remote` of `client/src/node.rs`, which
matches what came in with the questions that wait, and `remote_body` of `client/src/admin.rs`,
which makes the reply.

The list of the peers of a node and that of its tree come as raw keys, one after the other. The
framing of such a response is taken off as it was put on. But `remote_body` **parses the body as
JSON before it looks at the question**, so a list arrives only if its raw bytes happen to be JSON
(`remoteBody_keys_iff`).
-/

namespace Roots.Client

open Prog RouterM

/-! ## Questions -/

/-- `RemoteQuery`. -/
inductive RemoteQuery where
  | nodeInfo
  | selfInfo
  | peers
  | tree
  deriving DecidableEq

namespace RemoteQuery

/-- `RemoteQuery::answer_tag`. -/
def answerTag : RemoteQuery → UInt8 × Option UInt8
  | .nodeInfo => (protoNodeinfoRes, none)
  | .selfInfo => (protoDebug, some debugGetselfRes)
  | .peers => (protoDebug, some debugGetpeersRes)
  | .tree => (protoDebug, some debugGettreeRes)

/-- What `request_nodeinfo` and `request_debug` send. -/
def request : RemoteQuery → Bytes
  | .nodeInfo => [protoNodeinfoReq]
  | .selfInfo => [protoDebug, debugGetselfReq]
  | .peers => [protoDebug, debugGetpeersReq]
  | .tree => [protoDebug, debugGettreeReq]

end RemoteQuery

/-- `Node::is_answer`. -/
def isAnswer (bytes : Bytes) : UInt8 × Option UInt8 → Bool
  | (tag, none) => bytes.head? = some tag
  | (tag, some sub) =>
      match bytes with
      | b :: b' :: _ => b = tag ∧ b' = sub
      | _ => false

/-- `Node::answer_body`. -/
def answerBody (bytes : Bytes) (tag : UInt8 × Option UInt8) : Bytes :=
  bytes.drop (if tag.2.isSome then 2 else 1)

/-- The question a response answers. -/
def answers : Bytes → Option RemoteQuery
  | [] => none
  | [kind] => if kind = protoNodeinfoRes then some .nodeInfo else none
  | kind :: sub :: _ =>
      if kind = protoNodeinfoRes then some .nodeInfo
      else if kind = protoDebug then
        if sub = debugGetselfRes then some .selfInfo
        else if sub = debugGetpeersRes then some .peers
        else if sub = debugGettreeRes then some .tree
        else none
      else none

/-- A payload answers one question. -/
theorem isAnswer_iff (bytes : Bytes) (what : RemoteQuery) :
    isAnswer bytes what.answerTag = true ↔ answers bytes = some what := by
  match bytes with
  | [] => cases what <;> decide
  | [kind] => cases what <;> simp [isAnswer, answers, RemoteQuery.answerTag]
  | kind :: sub :: rest =>
    simp only [answers]
    by_cases hnode : kind = protoNodeinfoRes
    · subst hnode
      cases what <;>
        simp [isAnswer, RemoteQuery.answerTag, protoNodeinfoRes, protoDebug]
    · by_cases hdebug : kind = protoDebug
      · subst hdebug
        split_ifs <;> cases what <;> simp_all [isAnswer, RemoteQuery.answerTag] <;> decide
      · cases what <;> simp [isAnswer, RemoteQuery.answerTag, hnode, hdebug]

/-- What is filed answers some question. -/
theorem answers_of_isResponse {bytes : Bytes} (h : isResponse bytes = true) :
    ∃ what, answers bytes = some what := by
  refine Option.isSome_iff_exists.mp ?_
  match bytes with
  | [] => cases h
  | [kind] =>
    have hkind : kind = protoNodeinfoRes := of_decide_eq_true h
    simp [answers, hkind]
  | kind :: sub :: rest =>
    simp only [isResponse, decide_eq_true_eq] at h
    simp only [answers]
    obtain hnode | ⟨hdebug, hself | hpeers | htree⟩ := h <;> split_ifs <;> simp_all

/-- `PendingRemote`. -/
structure PendingRemote where
  key : Key
  what : RemoteQuery
  askedAt : Instant

/-- `REMOTE_TIMEOUT`. -/
def remoteTimeout : Nat := seconds 6

namespace PendingRemote

/-- Whether a question has waited long enough. -/
def expired (now : Instant) (q : PendingRemote) : Bool := remoteTimeout ≤ now - q.askedAt

/-- Whether a payload of the protocol inbox is an answer to the question. -/
def fits (q : PendingRemote) (x : Key × Bytes) : Bool :=
  x.1 = q.key ∧ isAnswer x.2 q.what.answerTag

/-- What a question asks for, as `fits` sees it. -/
def asks (q : PendingRemote) : Key × Option RemoteQuery := (q.key, some q.what)

/-- The error of a question that nobody answered. -/
def timeoutError (q : PendingRemote) : Text :=
  match q.what with
  | .nodeInfo => "timed out waiting for response".toList
  | _ => "timeout".toList

/-- What is sent to the one who asked. -/
def reply (q : PendingRemote) : Option (Key × Bytes) → Except Text Bytes
  | none => .error q.timeoutError
  | some x => .ok (answerBody x.2 q.what.answerTag)

theorem fits_iff (q : PendingRemote) (x : Key × Bytes) :
    q.fits x = true ↔ (x.1, answers x.2) = q.asks := by
  rw [fits, decide_eq_true_eq, isAnswer_iff, asks, Prod.mk.injEq]

end PendingRemote

/-- `Node::settle_remote` at the time `now`, on the questions and the protocol inbox. -/
def settleRemote (now : Instant) (pending : List PendingRemote) (inbox : List (Key × Bytes)) :
    Settlement PendingRemote (Key × Bytes) := handOut (·.expired now) (·.fits) pending inbox

/-- The replies that `settle_remote` sends. -/
def replies (now : Instant) (pending : List PendingRemote) (inbox : List (Key × Bytes)) :
    List (PendingRemote × Except Text Bytes) :=
  (settleRemote now pending inbox).done.map fun x => (x.1, x.1.reply x.2)

/-! ## The reply -/

/-- `serde_json::Value`, with a number as its text. -/
inductive Value where
  | null
  | bool (b : Bool)
  | number (text : Text)
  | string (text : Text)
  | array (items : List Value)
  | object (fields : List (Text × Value))

/-- `serde_json`. -/
class Json where
  fromSlice : Bytes → Except Text Value

/-- `as_chunks::<KEY_SIZE>().0`: the chunks that are whole. -/
def asChunks (body : Bytes) : List Bytes :=
  (List.range (body.length / keyLen)).map fun i => (body.drop (i * keyLen)).take keyLen

/-- The object of a list of keys. -/
def keysObject [Str.Hex] (keys : List Bytes) : Value :=
  .object [("keys".toList, .array (keys.map fun k => .string (Str.Hex.encode k)))]

/-- `remote_body`. -/
def remoteBody [Json] [Str.Hex] (what : RemoteQuery) (body : Bytes) : Except Text Value :=
  match Json.fromSlice body with
  | .error e => .error ("invalid character in remote response: ".toList ++ e)
  | .ok parsed =>
      match what with
      | .nodeInfo | .selfInfo => .ok parsed
      | .peers | .tree => .ok (keysObject (asChunks body))

/-! ## The list of keys on its way -/

/-- Keys one after the other. -/
def keyBytes (keys : List Key) : Bytes := keys.flatMap List.Vector.toList

theorem length_keyBytes (keys : List Key) : (keyBytes keys).length = keys.length * keyLen := by
  induction keys with
  | nil => rfl
  | cons k keys ih =>
    show (k.toList ++ keyBytes keys).length = _
    rw [List.length_append, ih, List.Vector.toList_length, List.length_cons, Nat.succ_mul,
      Nat.add_comm]

/-- The bytes of a response fit under `PROTO_RESPONSE_MAX`. -/
def Fitting (sub : UInt8) (keys : List Key) : Prop :=
  (protoDebug :: sub :: keyBytes keys).length ≤ protoResponseMax

/-- The longest list of the first keys that fits. -/
structure LongestFitting (sub : UInt8) (keys front : List Key) : Prop where
  first : front <+: keys
  fits : Fitting sub front
  longest : ∀ other, other <+: keys → Fitting sub other → other <+: front

/-- `concat_keys` goes on as long as the next key fits. The two bytes it reserves on top make no
difference: the cap is not a multiple of the size of a key. -/
theorem concatKeysLoop_eq (out : Bytes) (keys : List Key) :
    concatKeysLoop out keys =
      out ++ keyBytes (keys.take ((protoResponseMax - 2 - out.length) / keyLen)) := by
  induction keys generalizing out with
  | nil => rw [concatKeysLoop, List.take_nil, keyBytes, List.flatMap_nil, List.append_nil]
  | cons k keys ih =>
    rw [concatKeysLoop]
    split
    · rename_i hfull
      have hzero : (protoResponseMax - 2 - out.length) / keyLen = 0 :=
        Nat.div_eq_of_lt (by simp only [keyLen] at hfull ⊢; omega)
      rw [hzero, List.take_zero, keyBytes, List.flatMap_nil, List.append_nil]
    · rename_i hroom
      obtain ⟨n, hn⟩ : ∃ n, (protoResponseMax - 2 - out.length) / keyLen = n + 1 ∧
          (protoResponseMax - 2 - (out ++ k.toList).length) / keyLen = n := by
        refine ⟨_, ?_, rfl⟩
        simp only [List.length_append, List.Vector.toList_length, keyLen] at hroom ⊢
        omega
      rw [ih, hn.1, hn.2, List.take_succ_cons, List.append_assoc]
      rfl

theorem concatKeys_eq {sub : UInt8} {keys front : List Key}
    (h : LongestFitting sub keys front) :
    concatKeys protoDebug sub keys = protoDebug :: sub :: keyBytes front := by
  have hfit : ∀ l : List Key, Fitting sub l ↔ l.length ≤ 2045 := by
    intro l
    simp only [Fitting, List.length_cons, length_keyBytes, keyLen, protoResponseMax]
    omega
  have htake : keys.take 2045 = front := by
    have hshort := h.longest _ (List.take_prefix 2045 keys)
      ((hfit _).mpr (List.length_take_le ..))
    refine hshort.eq_of_length_le ?_
    have hle := (hfit _).mp h.fits
    have hlen := h.first.length_le
    rw [List.length_take]
    omega
  have hcap : (protoResponseMax - 2 - [protoDebug, sub].length) / keyLen = 2045 := by
    rw [List.length_cons, List.length_singleton]
    decide
  rw [concatKeys, concatKeysLoop_eq, hcap, htake]
  rfl

theorem asChunks_keyBytes (keys : List Key) :
    asChunks (keyBytes keys) = keys.map List.Vector.toList := by
  rw [asChunks, length_keyBytes, Nat.mul_div_cancel _ (by decide)]
  induction keys with
  | nil => rfl
  | cons k keys ih =>
    have hk : k.toList.length = keyLen := k.toList_length
    have hdrop : ∀ i, (keyBytes (k :: keys)).drop ((i + 1) * keyLen) =
        (keyBytes keys).drop (i * keyLen) := by
      intro i
      show (k.toList ++ keyBytes keys).drop _ = _
      have hle : k.toList.length ≤ (i + 1) * keyLen := by
        rw [hk]
        exact Nat.le_mul_of_pos_left _ i.succ_pos
      rw [List.drop_append, List.drop_eq_nil_of_le hle, hk, Nat.succ_mul, Nat.add_sub_cancel,
        List.nil_append]
    rw [List.length_cons, List.range_succ_eq_map, List.map_cons, List.map_map, List.map_cons, ← ih]
    congr 1
    · show ((k.toList ++ keyBytes keys).drop (0 * keyLen)).take keyLen = _
      rw [Nat.zero_mul, List.drop_zero, List.take_left' hk]
    · refine List.map_congr_left fun i _ => ?_
      show ((keyBytes (k :: keys)).drop ((i + 1) * keyLen)).take keyLen = _
      rw [hdrop]

section

variable [Crypto]

/-- A debug response goes to the inbox as it came. -/
theorem handleProtoBytes_response {sub : UInt8}
    (hsub : sub = debugGetselfRes ∨ sub = debugGetpeersRes ∨ sub = debugGettreeRes) (src : Key)
    (body : Bytes) (w : World) :
    (handleProtoBytes netSend src (protoDebug :: sub :: body) w).2.router.protoInbox =
      w.router.protoInbox ++ [(src, protoDebug :: sub :: body)] := by
  obtain rfl | rfl | rfl := hsub <;> rfl

/-- **The list of the keys of another node arrives if and only if its raw bytes are JSON.** The
response that the responder builds is filed by the asker and goes to the first question it is for,
without its framing. `remote_body` then gives the keys of the longest list that fits, in order, if
and only if `serde_json` accepts the bytes of the keys. -/
theorem remoteBody_keys_iff [Json] {what : RemoteQuery} {sub : UInt8}
    (hsub : what.answerTag = (protoDebug, some sub)) (hlist : what = .peers ∨ what = .tree)
    {keys front : List Key} (hfront : LongestFitting sub keys front) (w : World)
    {q : PendingRemote} (hwhat : q.what = what) (now : Instant) (hlive : q.expired now = false)
    (before after : List PendingRemote)
    (hbefore : ∀ q' ∈ before, q'.fits (q.key, concatKeys protoDebug sub keys) = false)
    (hfirst : ∀ x ∈ w.router.protoInbox, q.fits x = false) :
    ∃ body, (q, .ok body) ∈ replies now (before ++ q :: after)
        (handleProtoBytes netSend q.key (concatKeys protoDebug sub keys) w).2.router.protoInbox ∧
      (remoteBody what body = .ok (keysObject (front.map List.Vector.toList)) ↔
        ∃ parsed, Json.fromSlice (keyBytes front) = .ok parsed) := by
  have hresponse := concatKeys_eq hfront
  have hfiled :
      (handleProtoBytes netSend q.key (concatKeys protoDebug sub keys) w).2.router.protoInbox =
        w.router.protoInbox ++ [(q.key, protoDebug :: sub :: keyBytes front)] := by
    rw [hresponse]
    refine handleProtoBytes_response ?_ q.key _ w
    obtain rfl | rfl := hlist <;> cases hsub <;> simp
  refine ⟨keyBytes front, ?_, ?_⟩
  · rw [hfiled]
    rw [hresponse] at hbefore
    have hfits : q.fits (q.key, protoDebug :: sub :: keyBytes front) = true := by
      simp [PendingRemote.fits, hwhat, hsub, isAnswer]
    have hdone : (q, some (q.key, protoDebug :: sub :: keyBytes front)) ∈
        (settleRemote now (before ++ q :: after) _).done := handOut_takes hlive hfits hfirst hbefore
    exact List.mem_map.mpr ⟨_, hdone, by simp [PendingRemote.reply, answerBody, hwhat, hsub]⟩
  · simp only [remoteBody]
    cases Json.fromSlice (keyBytes front) with
    | error e => simp
    | ok parsed => obtain rfl | rfl := hlist <;> simp [asChunks_keyBytes]

end

/-! ## A list that is no JSON -/

section

attribute [local instance] Sample.lenient

/-- The part of JSON that is numbers without a zero. -/
@[reducible]
def numerals : Json where
  fromSlice body :=
    if body ≠ [] ∧ body.all (fun b => 0x31 ≤ b ∧ b ≤ 0x39) then
      .ok (.number (body.map fun b => Char.ofNat b.toNat))
    else .error "expected value".toList

attribute [local instance] numerals

/-- A question about the peers of the node with the high key 0xa0. -/
def peersQuestion : PendingRemote := ⟨highKey 0xa0, .peers, 0⟩

/-- The protocol inbox of a node that got a list of peers. -/
def listed (keys : List Key) : List (Key × Bytes) :=
  (handleProtoBytes netSend (highKey 0xa0) (concatKeys protoDebug debugGetpeersRes keys)
    (World.init (highKey 0x90) (.even 1))).2.router.protoInbox

/-- The node has one peer, whose key begins with a byte that begins no JSON. It answers, and the
one who asked gets an error. -/
theorem keys_refused :
    ∃ body e, (peersQuestion, .ok body) ∈ replies 0 [peersQuestion] (listed [highKey 0xb0]) ∧
      remoteBody .peers body = .error e :=
  ⟨keyBytes [highKey 0xb0], _, List.mem_of_mem_head? rfl, rfl⟩

/-- A key of 32 digits. -/
def digitsKey : Key := .replicate 32 0x31

/-- A list that arrives: the bytes of the key are a number. -/
theorem digits_arrive :
    ∃ body, (peersQuestion, .ok body) ∈ replies 0 [peersQuestion] (listed [digitsKey]) ∧
      remoteBody .peers body = .ok (keysObject [digitsKey.toList]) := by
  have hfront : LongestFitting debugGetpeersRes [digitsKey] [digitsKey] :=
    ⟨List.prefix_rfl, by rw [Fitting]; decide, fun _ h _ => h⟩
  obtain ⟨body, hreply, hiff⟩ := remoteBody_keys_iff (q := peersQuestion) rfl (.inl rfl) hfront
    (World.init (highKey 0x90) (.even 1)) rfl 0 rfl [] [] (fun _ h => absurd h List.not_mem_nil)
    fun _ h => absurd h List.not_mem_nil
  exact ⟨body, hreply, hiff.mpr ⟨_, rfl⟩⟩

end

end Roots.Client
