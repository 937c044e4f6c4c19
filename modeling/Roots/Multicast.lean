import Mathlib.Data.Char
import Mathlib.Data.List.Lex
import Roots.Address
import Roots.Lib.Assoc
import Roots.Wire.Reader

/-!
# Roots.Multicast

Peer discovery by beacons (`src/multicast.rs`): the beacon and the state machine that decides
when one goes out. The machine owns no socket. It is given **the interfaces of the newest
scan** and **the ports the client's listeners got**, and answers with commands.

Left out are the commands that dial a peer, which come from beacons that are received, and
the URI of a bind, which is a function of the configuration: what becomes of a bind is up to
the client.
-/

namespace Roots

/-! ## Beacons -/

/-- `u16::to_be_bytes`. -/
def beU16 (n : UInt16) : Bytes := [UInt8.ofNat (n.toNat / 256), UInt8.ofNat n.toNat]

/-- `u16::from_be_bytes` of the two bytes at an offset. -/
def beU16At (b : Bytes) (i : Nat) : UInt16 :=
  UInt16.ofNat ((b.getD i 0).toNat * 256 + (b.getD (i + 1) 0).toNat)

theorem beU16At_append {b rest : Bytes} {i : Nat} (h : b.length = i) (n : UInt16) :
    beU16At (b ++ (beU16 n ++ rest)) i = n := by
  subst h
  have hlt := n.toNat_lt
  have hfirst : (b ++ (beU16 n ++ rest)).getD b.length 0 = UInt8.ofNat (n.toNat / 256) := by
    simp [beU16, List.getD]
  have hsecond : (b ++ (beU16 n ++ rest)).getD (b.length + 1) 0 = UInt8.ofNat n.toNat := by
    simp [beU16, List.getD]
  rw [beU16At, hfirst, hsecond, ← UInt16.toNat_inj]
  simp only [UInt16.toNat_ofNat', UInt8.toNat_ofNat']
  omega

/-- A beacon. -/
structure Advertisement where
  major : UInt16
  minor : UInt16
  pubkey : Key
  port : UInt16
  hash : Bytes
deriving DecidableEq

namespace Advertisement

/-- `HEADER_LEN`. -/
def headerLen : Nat := keyLen + 8

def encode (adv : Advertisement) : Bytes :=
  beU16 adv.major ++ (beU16 adv.minor ++ (adv.pubkey.toList ++ (beU16 adv.port ++
    (beU16 (UInt16.ofNat adv.hash.length) ++ adv.hash))))

def decode (b : Bytes) : Except Exit Advertisement :=
  if b.length < headerLen then .error (.err .invalidLength)
  else
    match arrayOf keyLen ((b.drop 4).take keyLen) with
    | none => .error .panic
    | some pubkey =>
        let hashLen := (beU16At b (6 + keyLen)).toNat
        if b.length < headerLen + hashLen then .error (.err .invalidLength)
        else
          .ok
            { major := beU16At b 0
              minor := beU16At b 2
              pubkey
              port := beU16At b (4 + keyLen)
              hash := (b.drop headerLen).take hashLen }

/-- A beacon with a hash that its length field can count is read back as it is. -/
theorem decode_encode {adv : Advertisement} (h : adv.hash.length < 65536) :
    decode adv.encode = .ok adv := by
  have hlen : adv.encode.length = headerLen + adv.hash.length := by
    simp only [encode, beU16, headerLen, List.length_append, List.length_cons, List.length_nil,
      adv.pubkey.toList_length]
    omega
  have hpub : (adv.encode.drop 4).take keyLen = adv.pubkey.toList := by
    have hdrop : adv.encode.drop 4 = adv.pubkey.toList ++ (beU16 adv.port ++
        (beU16 (UInt16.ofNat adv.hash.length) ++ adv.hash)) := by
      simp [encode, beU16]
    rw [hdrop, List.take_append_of_le_length (by simp), List.take_of_length_le (by simp)]
  have hmajor : beU16At adv.encode 0 = adv.major := beU16At_append (b := []) rfl adv.major
  have hminor : beU16At adv.encode 2 = adv.minor :=
    beU16At_append (b := beU16 adv.major) rfl adv.minor
  have hport : beU16At adv.encode (4 + keyLen) = adv.port := by
    rw [encode, ← List.append_assoc, ← List.append_assoc]
    exact beU16At_append (by simp [beU16]; omega) adv.port
  have hcount : beU16At adv.encode (6 + keyLen) = UInt16.ofNat adv.hash.length := by
    rw [encode, ← List.append_assoc, ← List.append_assoc, ← List.append_assoc]
    exact beU16At_append (by simp [beU16]; omega) _
  have hhash : (adv.encode.drop headerLen).take adv.hash.length = adv.hash := by
    have hdrop : adv.encode.drop headerLen = adv.hash := by
      rw [encode, ← List.append_assoc, ← List.append_assoc, ← List.append_assoc,
        ← List.append_assoc]
      exact List.drop_left' (by simp [beU16, headerLen])
    rw [hdrop, List.take_length]
  have hnat : (UInt16.ofNat adv.hash.length).toNat = adv.hash.length :=
    UInt16.toNat_ofNat_of_lt' h
  rw [decode, if_neg (by omega), hpub, arrayOf_toList]
  dsimp only
  rw [hcount, hnat, if_neg (by omega), hmajor, hminor, hport, hhash]

end Advertisement

/-- The hash functions of the `blake2` crate. -/
class Blake2 where
  /-- `Blake2b512`. -/
  hash512 : Bytes → List.Vector UInt8 64
  /-- `Blake2bMac512` under a key of at most 64 bytes. -/
  mac512 : Bytes → Bytes → List.Vector UInt8 64

/-- Hashes of one value each. -/
@[reducible]
def constBlake2 : Blake2 :=
  ⟨fun _ => List.Vector.replicate 64 0, fun _ _ => List.Vector.replicate 64 1⟩

/-- `MAX_PASSWORD_LEN`. -/
def maxPasswordLen : Nat := 64

/-- `membership_hash`. A password that is too long for a key counts as none. -/
def membershipHash [Blake2] (password : Bytes) (pubkey : Key) : List.Vector UInt8 64 :=
  if password = [] ∨ maxPasswordLen < password.length then Blake2.hash512 pubkey.toList
  else Blake2.mac512 password pubkey.toList

/-! ## The state machine -/

/-- One interface of a scan. -/
structure InterfaceConfig where
  name : Text
  linkLocal : Address
  beacon : Bool
  listen : Bool
  port : UInt16
  priority : UInt8
  password : Bytes
deriving DecidableEq

/-- What the client must do. -/
inductive Command where
  | bind (iface : Text) (linkLocal : Address) (port : UInt16)
  | beacon (iface : Text) (bytes : Bytes)
  | unbind (iface : Text)
deriving DecidableEq

/-- `IfaceState`. An interface that left the newest scan has no `cfg`. -/
structure IfaceState where
  cfg : Option InterfaceConfig
  hash : List.Vector UInt8 64
  listenerPort : Option UInt16
  bindAddr : Option Address
  lastBeacon : Option Instant
  interval : Nat
  joined : Bool

namespace IfaceState

/-- An interface nothing is known about. -/
def fresh (hash : List.Vector UInt8 64) : IfaceState := ⟨none, hash, none, none, none, 0, false⟩

/-- `listener_stale`. -/
def listenerStale (st : IfaceState) : Bool :=
  match st.bindAddr with
  | none => false
  | some addr =>
      match st.cfg with
      | none => true
      | some cfg => cfg.linkLocal ≠ addr

/-- The listener is given up. -/
def reset (st : IfaceState) : IfaceState :=
  { st with listenerPort := none, bindAddr := none, lastBeacon := none, interval := 0 }

end IfaceState

/-- `MAX_INTERVAL`. -/
def maxInterval : Nat := seconds 15

/-- `Multicast`. -/
structure Multicast where
  localPubkey : Key
  ifaces : Assoc Text IfaceState

namespace Multicast

def new (localPubkey : Key) : Multicast := ⟨localPubkey, ∅⟩

/-- The names in the order of a `BTreeMap`. -/
def names (m : Multicast) : List Text := m.ifaces.keys.insertionSort (· ≤ ·)

section

variable [Blake2]

/-- One interface of `set_interfaces`. The first table is the new one, and the second is what
is left of the old. -/
def setInterface (pubkey : Key) (tables : Assoc Text IfaceState × Assoc Text IfaceState)
    (cfg : InterfaceConfig) : Assoc Text IfaceState × Assoc Text IfaceState :=
  if (¬ cfg.beacon ∧ ¬ cfg.listen) ∨ maxPasswordLen < cfg.password.length then tables
  else
    let hash := membershipHash cfg.password pubkey
    let st := (tables.2.lookup cfg.name).getD (.fresh hash)
    (tables.1.insert cfg.name { st with cfg := some cfg, hash }, tables.2.erase cfg.name)

/-- An interface that left the scan stays as long as it has a listener. -/
def keepBound (next : Assoc Text IfaceState) (e : Text × IfaceState) : Assoc Text IfaceState :=
  if e.2.bindAddr.isNone then next else next.insert e.1 { e.2 with cfg := none }

/-- `set_interfaces`. -/
def setInterfaces (m : Multicast) (ifaces : List InterfaceConfig) : Multicast :=
  let (next, rest) := ifaces.foldl (setInterface m.localPubkey) (∅, m.ifaces)
  { m with ifaces := rest.toList.foldl keepBound next }

end

/-- The first loop of `announce`: listeners that are no longer wanted are given up. -/
def sweepIface (acc : List Command × Assoc Text IfaceState) (name : Text) :
    List Command × Assoc Text IfaceState :=
  match acc.2.lookup name with
  | none => acc
  | some st =>
      if st.listenerStale then (acc.1 ++ [.unbind name], acc.2.insert name st.reset) else acc

/-- What the second loop of `announce` does for an interface that may send beacons: it asks for
a listener, or sends a beacon that is due. -/
def beaconIface (pubkey : Key) (now : Instant) (name : Text) (cfg : InterfaceConfig)
    (st : IfaceState) : List Command × IfaceState :=
  if st.bindAddr.isNone then
    ([.bind name cfg.linkLocal cfg.port], { st with bindAddr := some cfg.linkLocal })
  else
    match st.listenerPort with
    | none => ([], st)
    | some port =>
        if st.lastBeacon.any fun last => now - last < st.interval then ([], st)
        else
          ([.beacon name (Advertisement.encode ⟨0, 5, pubkey, port, st.hash.toList⟩)],
            { st with
              lastBeacon := some now
              interval := if st.interval < maxInterval then st.interval + seconds 1
                else st.interval })

/-- And for any interface: it joins the group if it listens. -/
def announceIface (pubkey : Key) (now : Instant) (name : Text) (st : IfaceState) :
    List Command × IfaceState :=
  match st.cfg with
  | none => ([], st)
  | some cfg =>
      let st := { st with joined := st.joined || cfg.listen }
      if cfg.beacon then beaconIface pubkey now name cfg st else ([], st)

def announceStep (pubkey : Key) (now : Instant) (acc : List Command × Assoc Text IfaceState)
    (name : Text) : List Command × Assoc Text IfaceState :=
  match acc.2.lookup name with
  | none => acc
  | some st =>
      let (commands, st) := announceIface pubkey now name st
      (acc.1 ++ commands, acc.2.insert name st)

/-- `announce`. -/
def announce (m : Multicast) (now : Instant) : List Command × Multicast :=
  let swept := m.names.foldl sweepIface ([], m.ifaces)
  let (commands, ifaces) := m.names.foldl (announceStep m.localPubkey now) swept
  (commands, { m with ifaces })

/-- `listener_up`. -/
def listenerUp (m : Multicast) (iface : Text) (boundPort : UInt16) : Multicast :=
  { m with ifaces := m.ifaces.modify iface fun st => { st with listenerPort := some boundPort } }

end Multicast

end Roots
