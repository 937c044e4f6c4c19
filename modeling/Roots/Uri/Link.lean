import Roots.Multicast
import Roots.Uri.Duration
import Roots.Uri.Escape

/-!
# Roots.Uri.Link

Peering URIs: `parse_link_uri` of `src/link.rs`, and the two URIs that discovery writes
(`listen_uri` and `dial_uri` of `src/multicast.rs`), together with `receive`, which turns a beacon
into a dial. **What discovery writes is read back**: the key that was advertised is the key the
link is pinned to, and password and priority are those of the interface.

How an IPv6 address is printed is the standard library's affair. All that is used of it is that
no question mark is printed.
-/

namespace Roots

/-- `Display` of an `Ipv6Addr`. -/
class AddressDisplay where
  display : Address → Text
  no_query : ∀ a, '?' ∉ display a

namespace Uri

open Str (Hex utf8 fromStrRadix splitOnce)

/-! ## Parsing -/

/-- `Scheme`. -/
inductive Scheme where
  | tcp | tls | ws | wss | quic
deriving DecidableEq

/-- `PeerUri`. -/
structure PeerUri where
  hostPort : Text
  password : Bytes
  priority : UInt8
  pinnedKey : Option Key
  sni : Option Text
  maxBackoff : Option Nat
deriving DecidableEq

/-- How `parse_link_uri` refuses a URI. -/
inductive UriError where
  | unrecognisedSchema
  | badUri (uri : Text)
  | pinnedKeyInvalid
  | priorityInvalid
  | passwordInvalid
  | maxBackoffInvalid
  /-- The arithmetic of `parse_go_duration` overflows. -/
  | overflow
deriving DecidableEq

/-- `MIN_MAX_BACKOFF`. -/
def minMaxBackoff : Nat := seconds 5

/-- The scheme, and what follows it. -/
def schemeOf (uri : Text) : Option (Scheme × Text) :=
  match List.isPrefixOf? "tcp://".toList uri with
  | some r => some (.tcp, r)
  | none =>
    match List.isPrefixOf? "tls://".toList uri with
    | some r => some (.tls, r)
    | none =>
      match List.isPrefixOf? "ws://".toList uri with
      | some r => some (.ws, r)
      | none =>
        match List.isPrefixOf? "wss://".toList uri with
        | some r => some (.wss, r)
        | none => (List.isPrefixOf? "quic://".toList uri).map (.quic, ·)

/-- The options of `parse_link_uri`, one unescaped value each. -/
def setOption [Hex] (out : PeerUri) (k v : Text) : Except UriError PeerUri :=
  if k = "password".toList then
    if maxPasswordLen < (utf8 v).length then .error .passwordInvalid
    else .ok { out with password := utf8 v }
  else if k = "priority".toList then
    match fromStrRadix 256 10 (utf8 v) with
    | some n => .ok { out with priority := UInt8.ofNat n }
    | none => .error .priorityInvalid
  else if k = "key".toList then
    match (Hex.decode (utf8 v)).bind (arrayOf keyLen) with
    | some key => .ok { out with pinnedKey := some key }
    | none => .error .pinnedKeyInvalid
  else if k = "sni".toList then .ok { out with sni := some v }
  else if k = "maxbackoff".toList then
    match parseGoDuration v with
    | .ok d =>
        if d < minMaxBackoff then .error .maxBackoffInvalid
        else .ok { out with maxBackoff := some d }
    | .error .overflow => .error .overflow
    | .error _ => .error .maxBackoffInvalid
  else .ok out

/-- One turn of the loop over the query. A pair whose value cannot be unescaped is dropped. -/
def readOption [Hex] (out : PeerUri) (pair : Text) : Except UriError PeerUri :=
  let (k, raw) := (splitOnce '=' pair).getD (pair, [])
  match queryUnescape raw with
  | none => .ok out
  | some v => setOption out k v

/-- `parse_link_uri`. -/
def parseLinkUri [Hex] (uri : Text) : Except UriError (Scheme × PeerUri) :=
  match schemeOf uri with
  | none => .error .unrecognisedSchema
  | some (scheme, rest) =>
      let (authority, query) := (splitOnce '?' rest).getD (rest, [])
      if authority = [] then .error (.badUri uri)
      else
        (((query.splitOn '&').filter (· ≠ [])).foldlM readOption
          ⟨authority, [], 0, none, none, none⟩).map (scheme, ·)

/-! ## The URIs of discovery -/

section

variable [AddressDisplay] [Hex]

/-- `Display` of an unsigned integer. -/
def decimal (n : Nat) : Text := Nat.toDigits 10 n

/-- `listen_uri`. -/
def listenUri (cfg : InterfaceConfig) : Text :=
  "tls://[".toList ++ AddressDisplay.display cfg.linkLocal ++ "]:".toList ++
    decimal cfg.port.toNat ++ "?password=".toList ++ queryEscape cfg.password ++
    "&priority=".toList ++ decimal cfg.priority.toNat

/-- `dial_uri`. -/
def dialUri (cfg : InterfaceConfig) (adv : Advertisement) (source : Address) (zone : Text) : Text :=
  "tls://[".toList ++ AddressDisplay.display source ++ "%".toList ++ zone ++ "]:".toList ++
    decimal adv.port.toNat ++ "?key=".toList ++ Hex.encode adv.pubkey.toList ++
    "&password=".toList ++ queryEscape cfg.password ++ "&priority=".toList ++
    decimal cfg.priority.toNat

/-- `Command::Dial`. -/
structure Dial where
  uri : Text
  sintf : Text
  peer : Key

/-- `receive`: a beacon that arrived on the interface `zone`. -/
def receive [Blake2] (m : Multicast) (zone : Text) (source : Address) (buf : Bytes) :
    Option Dial :=
  match Advertisement.decode buf with
  | .error _ => none
  | .ok adv =>
      if adv.major ≠ 0 ∨ adv.minor ≠ 5 then none
      else if adv.pubkey = m.localPubkey then none
      else
        match (m.ifaces.lookup zone).bind IfaceState.cfg with
        | none => none
        | some cfg =>
            if ¬ cfg.listen then none
            else if (membershipHash cfg.password adv.pubkey).toList ≠ adv.hash then none
            else some ⟨dialUri cfg adv source zone, zone, adv.pubkey⟩

end

/-! ## Reading an option back -/

/-- An option as it is written, with its value escaped or plain. -/
theorem readOption_written [Hex] {k raw v : Text} (hk : '=' ∉ k) (hv : queryUnescape raw = some v)
    (out : PeerUri) : readOption out (k ++ '=' :: raw) = setOption out k v := by
  rw [readOption, Str.splitOnce_append hk]
  dsimp only [Option.getD_some]
  rw [hv]

/-- Characters that `query_escape` leaves as they are need no escape. -/
theorem queryUnescape_unreserved {t : Text} (h : ∀ c ∈ t, c.toNat < 128)
    (hun : ∀ c ∈ t, unreserved (Str.byte c) = true) : queryUnescape t = some t := by
  have hescape : queryEscape (utf8 t) = t := by
    rw [queryEscape, Str.utf8_ascii h, List.flatMap_map]
    have hone : ∀ c ∈ t, escapeByte (Str.byte c) = [c] := by
      intro c hc
      have hnat : (Str.byte c).toNat = c.toNat := by
        have := h c hc
        simp only [Str.byte, UInt8.toNat_ofNat']
        omega
      rw [escapeByte, if_pos (hun c hc), hnat, Char.ofNat_toNat]
    rw [List.flatMap_congr hone, List.flatMap_singleton']
  rw [← hescape, queryUnescape_queryEscape, hescape]

theorem unreserved_of_mem_decimal {n : Nat} {c : Char} (h : c ∈ decimal n) :
    c.toNat < 128 ∧ unreserved (Str.byte c) = true ∧ c ≠ '?' ∧ c ≠ '&' := by
  have hdigit := Nat.isDigit_of_mem_toDigits (by decide) (by decide) h
  have hrange : 48 ≤ c.toNat ∧ c.toNat ≤ 57 := by
    simpa [Char.isDigit, UInt32.le_iff_toNat_le] using hdigit
  have hall : ∀ n < 58, 48 ≤ n → unreserved (Str.byte (Char.ofNat n)) = true ∧
      Char.ofNat n ≠ '?' ∧ Char.ofNat n ≠ '&' := by decide
  have hc := hall c.toNat (by omega) hrange.1
  rw [Char.ofNat_toNat] at hc
  exact ⟨by omega, hc⟩

theorem unreserved_of_mem_encode [Hex] {b : Bytes} {c : Char} (h : c ∈ Hex.encode b) :
    c.toNat < 128 ∧ unreserved (Str.byte c) = true ∧ c ≠ '&' := by
  have hall : (Str.lowerHex.all fun c =>
      c.toNat < 128 ∧ unreserved (Str.byte c) = true ∧ c ≠ '&') = true := by decide
  exact of_decide_eq_true (List.all_eq_true.mp hall c (Hex.mem_lowerHex h))

/-- `password` is the escaped password. -/
theorem readOption_password [Hex] {t : Text} (h : (utf8 t).length ≤ maxPasswordLen) (out : PeerUri) :
    readOption out ("password".toList ++ '=' :: queryEscape (utf8 t)) =
      .ok { out with password := utf8 t } := by
  rw [readOption_written (by decide) (queryUnescape_queryEscape t), setOption, if_pos rfl,
    if_neg (Nat.not_lt.mpr h)]

theorem fromStrRadix_decimal (n : UInt8) :
    fromStrRadix 256 10 (utf8 (decimal n.toNat)) = some n.toNat := by
  have hall : ∀ n < 256, fromStrRadix 256 10 (utf8 (decimal n)) = some n := by decide +kernel
  exact hall n.toNat n.toNat_lt

theorem readOption_priority [Hex] (n : UInt8) (out : PeerUri) :
    readOption out ("priority".toList ++ '=' :: decimal n.toNat) =
      .ok { out with priority := n } := by
  have hplain : queryUnescape (decimal n.toNat) = some (decimal n.toNat) :=
    queryUnescape_unreserved (fun c hc => (unreserved_of_mem_decimal hc).1)
      fun c hc => (unreserved_of_mem_decimal hc).2.1
  rw [readOption_written (by decide) hplain, setOption, if_neg (by decide), if_pos rfl,
    fromStrRadix_decimal]
  dsimp only
  rw [UInt8.ofNat_toNat]

theorem readOption_key [Hex] (key : Key) (out : PeerUri) :
    readOption out ("key".toList ++ '=' :: Hex.encode key.toList) =
      .ok { out with pinnedKey := some key } := by
  have hascii : ∀ c ∈ Hex.encode key.toList, c.toNat < 128 :=
    fun c hc => (unreserved_of_mem_encode hc).1
  have hplain : queryUnescape (Hex.encode key.toList) = some (Hex.encode key.toList) :=
    queryUnescape_unreserved hascii fun c hc => (unreserved_of_mem_encode hc).2.1
  rw [readOption_written (by decide) hplain, setOption, if_neg (by decide), if_neg (by decide),
    if_pos rfl, Str.utf8_ascii hascii, Hex.decode_encode, Option.bind_some, arrayOf_toList]

/-- A `tls` URI is taken apart at the first question mark and at every ampersand after it. -/
theorem parseLinkUri_tls [Hex] {authority : Text} {pairs : List Text}
    (hauthority : authority ≠ []) (hquery : '?' ∉ authority) (hne : pairs ≠ [])
    (hpairs : ∀ p ∈ pairs, '&' ∉ p) :
    parseLinkUri ("tls://".toList ++ (authority ++ '?' :: ['&'].intercalate pairs)) =
      ((pairs.filter (· ≠ [])).foldlM readOption ⟨authority, [], 0, none, none, none⟩).map
        (.tls, ·) := by
  have hscheme : ∀ rest, schemeOf ("tls://".toList ++ rest) = some (.tls, rest) := fun _ => rfl
  rw [parseLinkUri, hscheme]
  dsimp only
  rw [Str.splitOnce_append hquery]
  dsimp only [Option.getD_some]
  rw [if_neg hauthority, List.splitOn_intercalate _ hpairs hne]

/-- A bracketed host and its port. -/
def bracketed (host : Text) (port : UInt16) : Text :=
  "[".toList ++ host ++ "]:".toList ++ decimal port.toNat

theorem bracketed_ne_nil (host : Text) (port : UInt16) : bracketed host port ≠ [] := by
  simp [bracketed]

theorem no_query_bracketed {host : Text} (h : '?' ∉ host) (port : UInt16) :
    '?' ∉ bracketed host port := by
  have hport : '?' ∉ decimal port.toNat := fun hmem => (unreserved_of_mem_decimal hmem).2.2.1 rfl
  simp [bracketed, h, hport]

/-- The options of an interface: its password and its priority. -/
def credentials (cfg : InterfaceConfig) : List Text :=
  ["password".toList ++ '=' :: queryEscape cfg.password,
    "priority".toList ++ '=' :: decimal cfg.priority.toNat]

theorem no_amp_credentials (cfg : InterfaceConfig) : ∀ p ∈ credentials cfg, '&' ∉ p := by
  have hescape : '&' ∉ queryEscape cfg.password := by
    intro h
    exact absurd (plain_of_mem_queryEscape h) (by decide)
  have hdecimal : '&' ∉ decimal cfg.priority.toNat :=
    fun h => (unreserved_of_mem_decimal h).2.2.2 rfl
  simp [credentials, hescape, hdecimal]

/-- The credentials of an interface are read back. -/
theorem credentials_read [Hex] {cfg : InterfaceConfig} {password : Text}
    (hpassword : cfg.password = utf8 password) (hlen : cfg.password.length ≤ maxPasswordLen)
    (out : PeerUri) :
    ((credentials cfg).filter (· ≠ [])).foldlM readOption out =
      .ok { out with password := cfg.password, priority := cfg.priority } := by
  have hfilter : (credentials cfg).filter (· ≠ []) = credentials cfg := by simp [credentials]
  have hword : ∀ out, readOption out ("password".toList ++ '=' :: queryEscape cfg.password) =
      .ok { out with password := cfg.password } := by
    rw [hpassword] at hlen ⊢
    exact readOption_password hlen
  rw [hfilter, credentials, List.foldlM_cons, hword]
  exact (List.foldlM_cons ..).trans (congrArg (· >>= _) (readOption_priority cfg.priority _))

section

variable [AddressDisplay] [Hex]

omit [Hex] in
theorem listenUri_eq (cfg : InterfaceConfig) :
    listenUri cfg = "tls://".toList ++ (bracketed (AddressDisplay.display cfg.linkLocal) cfg.port ++
      '?' :: ['&'].intercalate (credentials cfg)) := by
  have htls : "tls://[".toList = "tls://".toList ++ "[".toList := by simp
  have hpassword : "?password=".toList = '?' :: ("password".toList ++ ['=']) := by simp
  have hpriority : "&priority=".toList = ['&'] ++ ("priority".toList ++ ['=']) := by simp
  -- `rw` would compare the literals with each other by evaluating them.
  unfold listenUri
  simp only [htls, hpassword, hpriority, credentials, List.intercalate_cons_cons,
    List.intercalate_singleton, bracketed]
  simp only [List.append_assoc, List.cons_append, List.nil_append]

theorem dialUri_eq (cfg : InterfaceConfig) (adv : Advertisement) (source : Address)
    (zone : Text) :
    dialUri cfg adv source zone = "tls://".toList ++
      (bracketed (AddressDisplay.display source ++ "%".toList ++ zone) adv.port ++
        '?' :: ['&'].intercalate
          (("key".toList ++ '=' :: Hex.encode adv.pubkey.toList) :: credentials cfg)) := by
  have htls : "tls://[".toList = "tls://".toList ++ "[".toList := by simp
  have hkey : "?key=".toList = '?' :: ("key".toList ++ ['=']) := by simp
  have hpassword : "&password=".toList = ['&'] ++ ("password".toList ++ ['=']) := by simp
  have hpriority : "&priority=".toList = ['&'] ++ ("priority".toList ++ ['=']) := by simp
  unfold dialUri
  simp only [htls, hkey, hpassword, hpriority, credentials, List.intercalate_cons_cons,
    List.intercalate_singleton, bracketed]
  simp only [List.append_assoc, List.cons_append, List.nil_append]

/-- What `parse_link_uri` reads from a dial URI. -/
theorem parseLinkUri_dialUri {cfg : InterfaceConfig} {password : Text}
    (hpassword : cfg.password = utf8 password) (hlen : cfg.password.length ≤ maxPasswordLen)
    (adv : Advertisement) (source : Address) {zone : Text} (hzone : '?' ∉ zone) :
    parseLinkUri (dialUri cfg adv source zone) =
      .ok (.tls,
        { hostPort := bracketed (AddressDisplay.display source ++ "%".toList ++ zone) adv.port
          password := cfg.password
          priority := cfg.priority
          pinnedKey := some adv.pubkey
          sni := none
          maxBackoff := none }) := by
  have hhost : '?' ∉ AddressDisplay.display source ++ "%".toList ++ zone := by
    simp [AddressDisplay.no_query, hzone]
  have hkey : '&' ∉ "key".toList ++ '=' :: Hex.encode adv.pubkey.toList := by
    have hhex : '&' ∉ Hex.encode adv.pubkey.toList :=
      fun h => (unreserved_of_mem_encode h).2.2 rfl
    simp [hhex]
  rw [dialUri_eq, parseLinkUri_tls (bracketed_ne_nil _ _) (no_query_bracketed hhost _)
      (by simp) (List.forall_mem_cons.mpr ⟨hkey, no_amp_credentials cfg⟩),
    List.filter_cons_of_pos (by simp), List.foldlM_cons, readOption_key]
  exact congrArg (Except.map (Scheme.tls, ·)) (credentials_read hpassword hlen _)

/-- **Discovered peers are dialled with the right credentials**: what `parse_link_uri` reads from
the dial URI is the key that was advertised, and the password and the priority of the interface,
at the source address with its zone and at the advertised port. The URI of the interface's own
listener has the same password and priority. -/
theorem discovery_uris_parsed (cfg : InterfaceConfig) (adv : Advertisement) (source : Address)
    (zone password : Text) (hpassword : cfg.password = utf8 password)
    (hlen : cfg.password.length ≤ maxPasswordLen) (hzone : '?' ∉ zone) :
    parseLinkUri (dialUri cfg adv source zone) =
        .ok (.tls,
          { hostPort := bracketed (AddressDisplay.display source ++ "%".toList ++ zone) adv.port
            password := cfg.password
            priority := cfg.priority
            pinnedKey := some adv.pubkey
            sni := none
            maxBackoff := none }) ∧
      parseLinkUri (listenUri cfg) =
        .ok (.tls,
          { hostPort := bracketed (AddressDisplay.display cfg.linkLocal) cfg.port
            password := cfg.password
            priority := cfg.priority
            pinnedKey := none
            sni := none
            maxBackoff := none }) := by
  refine ⟨parseLinkUri_dialUri hpassword hlen adv source hzone, ?_⟩
  rw [listenUri_eq, parseLinkUri_tls (bracketed_ne_nil _ _)
      (no_query_bracketed (AddressDisplay.no_query _) _) (by simp [credentials])
      (no_amp_credentials cfg), credentials_read hpassword hlen]
  rfl

/-- What `receive` dials is a beacon of another node, and the hash in it is the one that the
password of the interface gives the advertised key. -/
theorem receive_eq_some [Blake2] {m : Multicast} {zone : Text} {source : Address} {buf : Bytes}
    {dial : Dial} (h : receive m zone source buf = some dial) :
    ∃ adv cfg, Advertisement.decode buf = .ok adv ∧ adv.pubkey ≠ m.localPubkey ∧
      (m.ifaces.lookup zone).bind IfaceState.cfg = some cfg ∧ cfg.listen = true ∧
      (membershipHash cfg.password adv.pubkey).toList = adv.hash ∧
      dial = ⟨dialUri cfg adv source zone, zone, adv.pubkey⟩ := by
  unfold receive at h
  cases hdecode : Advertisement.decode buf with
  | error e => rw [hdecode] at h; cases h
  | ok adv =>
    rw [hdecode] at h
    dsimp only at h
    split_ifs at h with hversion hself
    cases hcfg : (m.ifaces.lookup zone).bind IfaceState.cfg with
    | none => rw [hcfg] at h; cases h
    | some cfg =>
      rw [hcfg] at h
      dsimp only at h
      split_ifs at h with hlisten hhash
      refine ⟨adv, cfg, rfl, hself, rfl, ?_, not_not.mp hhash, (Option.some.inj h).symm⟩
      simpa using hlisten

/-- The key that a dial is for is the key its URI pins. -/
theorem receive_pinned [Blake2] {m : Multicast} {zone : Text} {source : Address} {buf : Bytes}
    {dial : Dial} (h : receive m zone source buf = some dial) (hzone : '?' ∉ zone)
    (hpasswords : ∀ cfg, (m.ifaces.lookup zone).bind IfaceState.cfg = some cfg →
      cfg.password.length ≤ maxPasswordLen ∧ ∃ password, cfg.password = utf8 password) :
    ∃ peer, parseLinkUri dial.uri = .ok (.tls, peer) ∧ peer.pinnedKey = some dial.peer := by
  obtain ⟨adv, cfg, -, -, hcfg, -, -, rfl⟩ := receive_eq_some h
  have ⟨hlen, password, hpassword⟩ := hpasswords cfg hcfg
  exact ⟨_, parseLinkUri_dialUri hpassword hlen adv source hzone, rfl⟩

end

/-! ### An example -/

section

/-- A group of an address: its four digits without the zeros in front. -/
def groupText (hi lo : UInt8) : Text :=
  let digits := (Str.hexEncode [hi, lo]).dropWhile (· = '0')
  if digits = [] then ['0'] else digits

/-- The groups of an address. -/
def groups : Bytes → List Text
  | hi :: lo :: rest => groupText hi lo :: groups rest
  | _ => []

/-- Where the longest run of zero groups starts and how long it is; of equal runs the first. -/
def zeroRun (gs : List Text) : Nat × Nat :=
  ((List.range gs.length).map fun i => (i, ((gs.drop i).takeWhile (· = ['0'])).length)).foldl
    (fun longest run => if longest.2 < run.2 then run else longest) (0, 0)

/-- The text of an address: its groups between colons, with two colons for the longest run of at
least two zero groups, and an IPv4-mapped address with its last four bytes in decimal. -/
def ipv6Text (a : Address) : Text :=
  if a.toList.take 12 = List.replicate 10 0 ++ [255, 255] then
    "::ffff:".toList ++ ['.'].intercalate ((a.toList.drop 12).map fun b => decimal b.toNat)
  else
    let gs := groups a.toList
    let run := zeroRun gs
    if 1 < run.2 then
      [':'].intercalate (gs.take run.1) ++ "::".toList ++ [':'].intercalate (gs.drop (run.1 + run.2))
    else [':'].intercalate gs

theorem not_mem_intercalate {c sep : Char} (hsep : c ≠ sep) {ts : List Text}
    (h : ∀ t ∈ ts, c ∉ t) : c ∉ [sep].intercalate ts := by
  induction ts with
  | nil => simp
  | cons t ts ih =>
    have ht := h t List.mem_cons_self
    have hts := ih fun t ht => h t (List.mem_cons_of_mem _ ht)
    cases ts with
    | nil => rwa [List.intercalate_singleton]
    | cons u ts =>
      rw [List.intercalate_cons_cons]
      simp [ht, hsep, hts]

theorem no_query_groups (b : Bytes) : ∀ t ∈ groups b, '?' ∉ t := by
  have hgroup : ∀ hi lo, '?' ∉ groupText hi lo := by
    intro hi lo h
    dsimp only [groupText] at h
    split_ifs at h
    · exact absurd h (by decide)
    · have hdigit := (List.dropWhile_sublist _).subset h
      exact absurd (Str.mem_lowerHex_of_mem_hexEncode hdigit) (by decide)
  induction b using groups.induct with
  | case1 hi lo rest ih => exact List.forall_mem_cons.mpr ⟨hgroup hi lo, ih⟩
  | case2 b hshort =>
    intro t ht
    rw [groups] at ht
    · cases ht
    · exact hshort

theorem no_query_ipv6Text (a : Address) : '?' ∉ ipv6Text a := by
  have hgroups := no_query_groups a.toList
  dsimp only [ipv6Text]
  split_ifs
  · have hbytes : '?' ∉ ['.'].intercalate ((a.toList.drop 12).map fun b => decimal b.toNat) := by
      refine not_mem_intercalate (by decide) fun t ht h => ?_
      obtain ⟨b, -, rfl⟩ := List.mem_map.mp ht
      exact (unreserved_of_mem_decimal h).2.2.1 rfl
    exact List.not_mem_append (by decide) hbytes
  · have hfront : ∀ n, '?' ∉ [':'].intercalate ((groups a.toList).take n) := fun n =>
      not_mem_intercalate (by decide) fun t ht => hgroups t (List.mem_of_mem_take ht)
    have hback : ∀ n, '?' ∉ [':'].intercalate ((groups a.toList).drop n) := fun n =>
      not_mem_intercalate (by decide) fun t ht => hgroups t (List.mem_of_mem_drop ht)
    exact List.not_mem_append (List.not_mem_append (hfront _) (by decide)) (hback _)
  · exact not_mem_intercalate (by decide) hgroups

/-- Addresses as the standard library prints them. -/
@[reducible]
def ipv6Display : AddressDisplay := ⟨ipv6Text, no_query_ipv6Text⟩

attribute [local instance] ipv6Display Str.plainHex

/-- The address `fe80::1`. -/
def guardedAddr : Address := ⟨0xfe :: 0x80 :: List.replicate 13 0 ++ [1], rfl⟩

/-- An interface whose password has every separator in it. -/
def guardedConfig : InterfaceConfig :=
  ⟨"eth0".toList, guardedAddr, true, true, 9001, 7, utf8 "a&b=c?+% é".toList⟩

def guardedBeacon : Advertisement := ⟨0, 5, List.Vector.replicate 32 171, 40000, []⟩

theorem discovery_uris_parsed_guarded :
    guardedConfig.password.length ≤ maxPasswordLen ∧ '?' ∉ "eth0".toList ∧
      parseLinkUri (dialUri guardedConfig guardedBeacon guardedAddr "eth0".toList) =
        .ok (.tls,
          { hostPort := "[fe80::1%eth0]:40000".toList
            password := utf8 "a&b=c?+% é".toList
            priority := 7
            pinnedKey := some (List.Vector.replicate 32 171)
            sni := none
            maxBackoff := none }) :=
  have hlen : guardedConfig.password.length ≤ maxPasswordLen := by decide
  have hzone : '?' ∉ "eth0".toList := by decide
  have hhost : bracketed (AddressDisplay.display guardedAddr ++ "%".toList ++ "eth0".toList)
      40000 = "[fe80::1%eth0]:40000".toList := by decide
  ⟨hlen, hzone, hhost ▸ (discovery_uris_parsed guardedConfig guardedBeacon guardedAddr
    "eth0".toList "a&b=c?+% é".toList rfl hlen hzone).1⟩

end

end Uri

end Roots
