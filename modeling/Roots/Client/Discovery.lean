import Mathlib.Data.List.Induction
import Roots.Multicast

/-!
# Roots.Client.Discovery

The discovery task of the client: `run_multicast` of `client/src/main.rs` over the `tick` of
`client/src/multicast.rs`. There are three places that know about a listener. The state
machine has asked for one and may know its port, `tick` passes the machine's commands on, and
the task keeps **a port for each interface that it has a listener for**.

A beacon should carry the port of a listener that was spawned for the address its interface
has in the newest scan. `tick` keeps the `Unbind` commands to itself, so the task never
forgets a port: it does not spawn a listener for an address that has changed, and reports the
port of the old one. `beacons_backed` is about the rounds in which no address has changed.
-/

namespace Roots.Client

/-- A listener that was spawned. -/
structure Spawned where
  iface : Text
  addr : Address
  port : UInt16
deriving DecidableEq

/-- The state of the task: the machine, the ports of its listeners, and for the record the
listeners it has spawned. -/
structure Discovery where
  inner : Multicast
  listeners : Assoc Text UInt16
  spawned : List Spawned

/-- What comes to the task in one round: a scan, the time, and what becomes of a listener that
is spawned on an interface. -/
structure Round where
  scan : List InterfaceConfig
  now : Instant
  binds : Text → Option UInt16

/-- What a tick answers: the beacons that go out, and the commands that are passed on. -/
structure Ticked where
  inner : Multicast
  sent : List (Text × Bytes)
  out : List Command

/-- The commands `tick` passes on. It sends the beacons itself. -/
def forwarded : Command → Option Command
  | .bind iface linkLocal _ => some (.bind iface linkLocal 0)
  | .beacon .. => none
  | .unbind _ => none

def beaconOf : Command → Option (Text × Bytes)
  | .beacon iface bytes => some (iface, bytes)
  | _ => none

/-- The ports that are known are reported for the interfaces of the scan. -/
def report (bind : Text → Option UInt16) (m : Multicast) (cfg : InterfaceConfig) : Multicast :=
  match bind cfg.name with
  | some port => m.listenerUp cfg.name port
  | none => m

/-- `Discovery::tick`. -/
def tick [Blake2] (m : Multicast) (scan : List InterfaceConfig) (bind : Text → Option UInt16)
    (now : Instant) : Ticked :=
  let (commands, inner) := ((scan.foldl (report bind) m).setInterfaces scan).announce now
  ⟨inner, commands.filterMap beaconOf, commands.filterMap forwarded⟩

namespace Discovery

def init (pubkey : Key) : Discovery := ⟨.new pubkey, ∅, []⟩

/-- What the task does with a command. -/
def carryOut (binds : Text → Option UInt16) (d : Discovery) : Command → Discovery
  | .bind iface linkLocal _ =>
      if iface ∈ d.listeners then d
      else
        match binds iface with
        | none => d
        | some port =>
            { d with
              listeners := d.listeners.insert iface port
              spawned := d.spawned ++ [⟨iface, linkLocal, port⟩] }
  | .unbind iface => { d with listeners := d.listeners.erase iface }
  | .beacon .. => d

section

variable [Blake2]

/-- The tick of a round. -/
def ticked (d : Discovery) (r : Round) : Ticked := tick d.inner r.scan d.listeners.lookup r.now

/-- One round of `run_multicast`. -/
def round (d : Discovery) (r : Round) : Discovery :=
  (d.ticked r).out.foldl (carryOut r.binds) { d with inner := (d.ticked r).inner }

def run (d : Discovery) (rounds : List Round) : Discovery := rounds.foldl round d

theorem run_append (d : Discovery) (rounds more : List Round) :
    d.run (rounds ++ more) = (d.run rounds).run more := List.foldl_append

end

end Discovery

/-! ## The port the machine knows -/

/-- The machine knows no port but the one the task has for the interface. -/
def Agree (ifaces : Assoc Text IfaceState) (listeners : Assoc Text UInt16) : Prop :=
  ∀ name st port, ifaces.lookup name = some st → st.listenerPort = some port →
    listeners.lookup name = some port

variable {ifaces : Assoc Text IfaceState} {listeners : Assoc Text UInt16}

theorem agree_insert (h : Agree ifaces listeners) {name : Text} {st : IfaceState}
    (hst : ∀ port, st.listenerPort = some port → listeners.lookup name = some port) :
    Agree (ifaces.insert name st) listeners := by
  intro name' st' port hlookup hport
  rw [Assoc.lookup_insert_ite] at hlookup
  split at hlookup
  · rename_i heq
    cases hlookup
    exact heq ▸ hst port hport
  · exact h name' st' port hlookup hport

theorem agree_report {m : Multicast} (h : Agree m.ifaces listeners) (cfg : InterfaceConfig) :
    Agree (report listeners.lookup m cfg).ifaces listeners := by
  unfold report
  split
  · rename_i port hport
    intro name st port' hlookup hport'
    change (m.ifaces.modify cfg.name _).lookup name = some st at hlookup
    rw [Assoc.lookup_modify] at hlookup
    split at hlookup
    · rename_i heq
      obtain ⟨st₀, -, rfl⟩ := Option.map_eq_some_iff.mp hlookup
      cases hport'
      exact heq ▸ hport
    · exact h name st port' hlookup hport'
  · exact h

section Machine

variable [Blake2]

/-- The tables of `set_interfaces`: both agree with the ports, and what is in the new one comes
from the scan. -/
structure Scanned (listeners : Assoc Text UInt16) (scan : List InterfaceConfig)
    (next rest : Assoc Text IfaceState) : Prop where
  agree : Agree next listeners
  agreeRest : Agree rest listeners
  listed : ∀ name st cfg, next.lookup name = some st → st.cfg = some cfg →
    cfg ∈ scan ∧ cfg.name = name

theorem setInterface_scanned {scan : List InterfaceConfig} {pubkey : Key}
    {tables : Assoc Text IfaceState × Assoc Text IfaceState} {cfg : InterfaceConfig}
    (h : Scanned listeners scan tables.1 tables.2) (hcfg : cfg ∈ scan) :
    Scanned listeners scan (Multicast.setInterface pubkey tables cfg).1
      (Multicast.setInterface pubkey tables cfg).2 := by
  unfold Multicast.setInterface
  split
  · exact h
  refine ⟨agree_insert h.agree fun port hport => ?_, fun name st port hlookup hport => ?_,
    fun name st cfg' hlookup hst => ?_⟩
  · -- The entry is the old one, or a new one without a port.
    cases hold : tables.2.lookup cfg.name with
    | none =>
      rw [hold] at hport
      cases hport
    | some st =>
      rw [hold] at hport
      exact h.agreeRest cfg.name st port hold hport
  · rw [Assoc.lookup_erase_ite] at hlookup
    split at hlookup
    · cases hlookup
    · exact h.agreeRest name st port hlookup hport
  · rw [Assoc.lookup_insert_ite] at hlookup
    split at hlookup
    · rename_i heq
      cases hlookup
      cases hst
      exact ⟨hcfg, heq.symm⟩
    · exact h.listed name st cfg' hlookup hst

omit [Blake2] in
theorem keepBound_scanned {scan : List InterfaceConfig} {next rest : Assoc Text IfaceState}
    (h : Scanned listeners scan next rest) {e : Text × IfaceState}
    (he : rest.lookup e.1 = some e.2) :
    Scanned listeners scan (Multicast.keepBound next e) rest := by
  unfold Multicast.keepBound
  split
  · exact h
  refine ⟨agree_insert h.agree fun port hport => h.agreeRest e.1 e.2 port he hport, h.agreeRest,
    fun name st cfg hlookup hst => ?_⟩
  rw [Assoc.lookup_insert_ite] at hlookup
  split at hlookup
  · cases hlookup
    cases hst
  · exact h.listed name st cfg hlookup hst

/-- The machine after a scan: it knows no other ports, and its interfaces are those of the
scan. -/
structure Ready (listeners : Assoc Text UInt16) (scan : List InterfaceConfig)
    (ifaces : Assoc Text IfaceState) : Prop where
  agree : Agree ifaces listeners
  listed : ∀ name st cfg, ifaces.lookup name = some st → st.cfg = some cfg →
    cfg ∈ scan ∧ cfg.name = name

theorem setInterfaces_ready {m : Multicast} (h : Agree m.ifaces listeners)
    (scan : List InterfaceConfig) : Ready listeners scan (m.setInterfaces scan).ifaces := by
  have hstart : Scanned listeners scan ∅ m.ifaces :=
    ⟨fun _ _ _ hlookup => (by cases hlookup), h, fun _ _ _ hlookup => (by cases hlookup)⟩
  have hscan := List.foldlRecOn
    (motive := fun tables => Scanned listeners scan tables.1 tables.2)
    scan (Multicast.setInterface m.localPubkey) (b := (∅, m.ifaces)) hstart
    fun _ hscanned cfg hcfg => setInterface_scanned hscanned hcfg
  have hkeep := List.foldlRecOn (motive := fun next => Scanned listeners scan next _)
    (Assoc.toList _) Multicast.keepBound hscan
    fun _ hscanned e he => keepBound_scanned hscanned (Assoc.mem_toList.mp he)
  exact ⟨hkeep.agree, hkeep.listed⟩

omit [Blake2] in
theorem Ready.insert {scan : List InterfaceConfig} (h : Ready listeners scan ifaces) {name : Text}
    {st st' : IfaceState} (hst : ifaces.lookup name = some st) (hcfg : st'.cfg = st.cfg)
    (hport : st'.listenerPort = none ∨ st'.listenerPort = st.listenerPort) :
    Ready listeners scan (ifaces.insert name st') := by
  refine ⟨agree_insert h.agree fun port hport' => ?_, fun name' st₀ cfg hlookup hst₀ => ?_⟩
  · rcases hport with hnone | hsame
    · cases hnone.symm.trans hport'
    · exact h.agree name st port hst (hsame ▸ hport')
  · rw [Assoc.lookup_insert_ite] at hlookup
    split at hlookup
    · rename_i heq
      cases hlookup
      exact heq ▸ h.listed name st cfg hst (hcfg ▸ hst₀)
    · exact h.listed name' st₀ cfg hlookup hst₀

/-- A beacon is for an interface of the scan that may send them, and carries the port the task
has for it. -/
def Carries (listeners : Assoc Text UInt16) (scan : List InterfaceConfig) (iface : Text)
    (bytes : Bytes) : Prop :=
  ∃ cfg ∈ scan, cfg.name = iface ∧ cfg.beacon = true ∧
    ∃ adv, Advertisement.decode bytes = .ok adv ∧ listeners.lookup iface = some adv.port

omit [Blake2] in
theorem beaconIface_cases (pubkey : Key) (now : Instant) (name : Text) (cfg : InterfaceConfig)
    (st : IfaceState) :
    (Multicast.beaconIface pubkey now name cfg st).2.cfg = st.cfg ∧
      (Multicast.beaconIface pubkey now name cfg st).2.listenerPort = st.listenerPort ∧
      ∀ iface bytes, .beacon iface bytes ∈ (Multicast.beaconIface pubkey now name cfg st).1 →
        iface = name ∧ ∃ port, st.listenerPort = some port ∧
          bytes = Advertisement.encode ⟨0, 5, pubkey, port, st.hash.toList⟩ := by
  unfold Multicast.beaconIface
  split
  · refine ⟨rfl, rfl, fun iface bytes h => ?_⟩
    cases List.mem_singleton.mp h
  · split
    · exact ⟨rfl, rfl, fun _ _ h => absurd h List.not_mem_nil⟩
    · rename_i port hport
      split
      · exact ⟨rfl, rfl, fun _ _ h => absurd h List.not_mem_nil⟩
      · refine ⟨rfl, rfl, fun iface bytes h => ?_⟩
        cases List.mem_singleton.mp h
        exact ⟨rfl, port, hport, rfl⟩

omit [Blake2] in
theorem announceIface_cases (pubkey : Key) (now : Instant) (name : Text) (st : IfaceState) :
    (Multicast.announceIface pubkey now name st).2.cfg = st.cfg ∧
      (Multicast.announceIface pubkey now name st).2.listenerPort = st.listenerPort ∧
      ∀ iface bytes, .beacon iface bytes ∈ (Multicast.announceIface pubkey now name st).1 →
        iface = name ∧ ∃ cfg port, st.cfg = some cfg ∧ cfg.beacon = true ∧
          st.listenerPort = some port ∧
          bytes = Advertisement.encode ⟨0, 5, pubkey, port, st.hash.toList⟩ := by
  unfold Multicast.announceIface
  split
  · exact ⟨rfl, rfl, fun _ _ h => absurd h List.not_mem_nil⟩
  · rename_i cfg hcfg
    dsimp only
    split
    · rename_i hbeacon
      obtain ⟨hcfg', hport, hsent⟩ := beaconIface_cases pubkey now name cfg
        { st with joined := st.joined || cfg.listen }
      refine ⟨hcfg', hport, fun iface bytes h => ?_⟩
      obtain ⟨hname, port, hport', hbytes⟩ := hsent iface bytes h
      exact ⟨hname, cfg, port, hcfg, hbeacon, hport', hbytes⟩
    · exact ⟨rfl, rfl, fun _ _ h => absurd h List.not_mem_nil⟩

/-- What an announce has come to: the machine is as it was after the scan, and the beacons so
far carry the ports of the task. -/
structure Announcing (listeners : Assoc Text UInt16) (scan : List InterfaceConfig)
    (acc : List Command × Assoc Text IfaceState) : Prop where
  ready : Ready listeners scan acc.2
  carries : ∀ iface bytes, .beacon iface bytes ∈ acc.1 → Carries listeners scan iface bytes

omit [Blake2] in
theorem sweepIface_announcing {scan : List InterfaceConfig}
    {acc : List Command × Assoc Text IfaceState} (h : Announcing listeners scan acc) (name : Text) :
    Announcing listeners scan (Multicast.sweepIface acc name) := by
  unfold Multicast.sweepIface
  split
  · exact h
  · rename_i st hst
    split
    · refine ⟨h.ready.insert hst rfl (.inl rfl), fun iface bytes hmem => ?_⟩
      rcases List.mem_append.mp hmem with hmem | hmem
      · exact h.carries iface bytes hmem
      · cases List.mem_singleton.mp hmem
    · exact h

omit [Blake2] in
theorem announceStep_announcing {scan : List InterfaceConfig} {pubkey : Key} {now : Instant}
    {acc : List Command × Assoc Text IfaceState} (h : Announcing listeners scan acc) (name : Text) :
    Announcing listeners scan (Multicast.announceStep pubkey now acc name) := by
  unfold Multicast.announceStep
  split
  · exact h
  · rename_i st hst
    obtain ⟨hcfg, hport, hbeacon⟩ := announceIface_cases pubkey now name st
    refine ⟨h.ready.insert hst hcfg (.inr hport), fun iface bytes hmem => ?_⟩
    rcases List.mem_append.mp hmem with hmem | hmem
    · exact h.carries iface bytes hmem
    · obtain ⟨rfl, cfg, port, hst', hmay, hport', rfl⟩ := hbeacon iface bytes hmem
      obtain ⟨hscan, hname⟩ := h.ready.listed iface st cfg hst hst'
      refine ⟨cfg, hscan, hname, hmay, _, Advertisement.decode_encode ?_,
        h.ready.agree iface st port hst hport'⟩
      simp

omit [Blake2] in
/-- Every beacon of an announce carries a port of the task. -/
theorem announce_announcing {scan : List InterfaceConfig} {m : Multicast}
    (h : Ready listeners scan m.ifaces) (now : Instant) :
    Announcing listeners scan ((m.announce now).1, (m.announce now).2.ifaces) := by
  have hstart : Announcing listeners scan ([], m.ifaces) :=
    ⟨h, fun _ _ hmem => absurd hmem List.not_mem_nil⟩
  have hsweep := List.foldlRecOn (motive := Announcing listeners scan) m.names
    Multicast.sweepIface hstart fun _ hacc name _ => sweepIface_announcing hacc name
  exact List.foldlRecOn (motive := Announcing listeners scan) m.names
    (Multicast.announceStep m.localPubkey now) hsweep
    fun _ hacc name _ => announceStep_announcing hacc name

theorem ticked_carries {d : Discovery} (h : Agree d.inner.ifaces d.listeners) (r : Round) :
    Agree (d.ticked r).inner.ifaces d.listeners ∧
      ∀ iface bytes, (iface, bytes) ∈ (d.ticked r).sent →
        Carries d.listeners r.scan iface bytes := by
  have hreport := List.foldlRecOn (motive := fun m : Multicast => Agree m.ifaces d.listeners)
    r.scan (report d.listeners.lookup) h fun _ hm cfg _ => agree_report hm cfg
  have hannounce := announce_announcing (setInterfaces_ready hreport r.scan) r.now
  refine ⟨hannounce.ready.agree, fun iface bytes hsent => ?_⟩
  obtain ⟨c, hc, hbeacon⟩ := List.mem_filterMap.mp hsent
  cases c with
  | beacon iface' bytes' =>
    cases hbeacon
    exact hannounce.carries iface bytes hc
  | bind | unbind => cases hbeacon

/-! ## Rounds -/

omit [Blake2] in
/-- A port that is known is not forgotten. -/
theorem carryOut_agree {d : Discovery} (h : Agree d.inner.ifaces d.listeners)
    (binds : Text → Option UInt16) {c : Command} (hc : ∀ iface, c ≠ .unbind iface) :
    Agree (d.carryOut binds c).inner.ifaces (d.carryOut binds c).listeners := by
  cases c with
  | beacon => exact h
  | unbind iface => exact absurd rfl (hc iface)
  | bind iface linkLocal port =>
    unfold Discovery.carryOut
    dsimp only
    split
    · exact h
    rename_i hnew
    split
    · exact h
    · intro name st port' hlookup hport
      have hknown := h name st port' hlookup hport
      have hne : name ≠ iface := fun heq => hnew (Assoc.mem_iff_lookup.mpr ⟨port', heq ▸ hknown⟩)
      show (d.listeners.insert iface _).lookup name = some port'
      rw [Assoc.lookup_insert_ite, if_neg hne, hknown]

/-- `tick` passes no `Unbind` on, so the machine stays in agreement with the task. -/
theorem round_agree {d : Discovery} (h : Agree d.inner.ifaces d.listeners) (r : Round) :
    Agree (d.round r).inner.ifaces (d.round r).listeners := by
  refine List.foldlRecOn (motive := fun d : Discovery => Agree d.inner.ifaces d.listeners)
    (d.ticked r).out (Discovery.carryOut r.binds) (ticked_carries h r).1 fun d' hd' c hc => ?_
  refine carryOut_agree hd' r.binds fun iface heq => ?_
  obtain ⟨c', -, hforward⟩ := List.mem_filterMap.mp hc
  subst heq
  cases c' <;> cases hforward

theorem run_agree (pubkey : Key) (rounds : List Round) :
    Agree ((Discovery.init pubkey).run rounds).inner.ifaces
      ((Discovery.init pubkey).run rounds).listeners := by
  induction rounds using List.reverseRecOn with
  | nil => exact fun _ _ _ hlookup => by cases hlookup
  | append_singleton rounds r ih =>
    rw [Discovery.run_append]
    exact round_agree ih r

/-- The interfaces of the scan that may send beacons have the addresses their listeners were
spawned for, as far as they have listeners. -/
def Discovery.Settled (d : Discovery) (r : Round) : Prop :=
  ∀ cfg ∈ r.scan, cfg.beacon = true → ∀ port, d.listeners.lookup cfg.name = some port →
    ⟨cfg.name, cfg.linkLocal, port⟩ ∈ d.spawned

/-- **A beacon carries the port of a listener that was spawned for the address its interface has
in the scan**, in every round in which no such address has changed. -/
theorem beacons_backed {pubkey : Key} {before : List Round} {r : Round}
    (h : ((Discovery.init pubkey).run before).Settled r) {iface : Text} {bytes : Bytes}
    (hsent : (iface, bytes) ∈ (((Discovery.init pubkey).run before).ticked r).sent) :
    ∃ cfg ∈ r.scan, cfg.name = iface ∧ ∃ adv, Advertisement.decode bytes = .ok adv ∧
      ⟨iface, cfg.linkLocal, adv.port⟩ ∈ ((Discovery.init pubkey).run before).spawned := by
  obtain ⟨cfg, hscan, rfl, hbeacon, adv, hdecode, hport⟩ :=
    (ticked_carries (run_agree pubkey before) r).2 iface bytes hsent
  exact ⟨cfg, hscan, rfl, adv, hdecode, h cfg hscan hbeacon adv.port hport⟩

end Machine

/-! ## An address that changes -/

section

attribute [local instance] constBlake2

/-- One interface with a link-local address that ends in a number. -/
def ethConfig (n : UInt8) : InterfaceConfig :=
  ⟨['e'], ⟨[0xfe, 0x80] ++ List.replicate 13 0 ++ [n], rfl⟩, true, true, 0, 0, []⟩

/-- A round in which that is the scan; a listener gets the port 5000. -/
def ethRound (n : UInt8) (now : Nat) : Round := ⟨[ethConfig n], seconds now, fun _ => some 5000⟩

def ethNode : Discovery := .init (List.Vector.replicate 32 7)

/-- The address changes after the listener was spawned. -/
theorem moved_facts :
    ((ethNode.run [ethRound 1 0, ethRound 2 1]).ticked (ethRound 2 2)).sent.map Prod.fst = [['e']] ∧
      (ethNode.run [ethRound 1 0, ethRound 2 1]).spawned =
        [⟨['e'], (ethConfig 1).linkLocal, 5000⟩] := by decide +kernel

/-- A beacon goes out for the new address, and nobody ever listened there. -/
theorem not_backed_moved :
    ∃ bytes, (['e'], bytes) ∈
        ((ethNode.run [ethRound 1 0, ethRound 2 1]).ticked (ethRound 2 2)).sent ∧
      ¬ ∃ cfg ∈ (ethRound 2 2).scan, cfg.name = ['e'] ∧
        ∃ adv, Advertisement.decode bytes = .ok adv ∧
          ⟨['e'], cfg.linkLocal, adv.port⟩ ∈ (ethNode.run [ethRound 1 0, ethRound 2 1]).spawned := by
  obtain ⟨hsent, hspawned⟩ := moved_facts
  have hmem : ['e'] ∈
      ((ethNode.run [ethRound 1 0, ethRound 2 1]).ticked (ethRound 2 2)).sent.map Prod.fst := by
    rw [hsent]
    exact List.mem_singleton.mpr rfl
  obtain ⟨⟨_, bytes⟩, hbeacon, rfl⟩ := List.mem_map.mp hmem
  refine ⟨bytes, hbeacon, ?_⟩
  rintro ⟨cfg, hcfg, -, adv, -, hlistener⟩
  rw [hspawned, List.mem_singleton, List.mem_singleton.mp hcfg] at hlistener
  have haddr : (ethConfig 2).linkLocal ≠ (ethConfig 1).linkLocal := by decide
  exact haddr (congrArg Spawned.addr hlistener)

theorem settled_facts :
    ((ethNode.run [ethRound 1 0]).ticked (ethRound 1 1)).sent.map Prod.fst = [['e']] ∧
      (ethNode.run [ethRound 1 0]).listeners.lookup ['e'] = some 5000 ∧
      (ethNode.run [ethRound 1 0]).spawned = [⟨['e'], (ethConfig 1).linkLocal, 5000⟩] := by
  decide +kernel

/-- While the address stays, the first beacon carries the port of its listener. -/
theorem beacons_backed_settled :
    (ethNode.run [ethRound 1 0]).Settled (ethRound 1 1) ∧
      ∃ bytes, (['e'], bytes) ∈ ((ethNode.run [ethRound 1 0]).ticked (ethRound 1 1)).sent ∧
        ∃ cfg ∈ (ethRound 1 1).scan, cfg.name = ['e'] ∧
          ∃ adv, Advertisement.decode bytes = .ok adv ∧
            ⟨['e'], cfg.linkLocal, adv.port⟩ ∈ (ethNode.run [ethRound 1 0]).spawned := by
  obtain ⟨hsent, hport, hspawned⟩ := settled_facts
  have hsettled : (ethNode.run [ethRound 1 0]).Settled (ethRound 1 1) := by
    intro cfg hcfg _ port hlookup
    rw [List.mem_singleton.mp hcfg] at hlookup ⊢
    cases hport.symm.trans hlookup
    rw [hspawned]
    exact List.mem_singleton.mpr rfl
  have hmem : ['e'] ∈
      ((ethNode.run [ethRound 1 0]).ticked (ethRound 1 1)).sent.map Prod.fst := by
    rw [hsent]
    exact List.mem_singleton.mpr rfl
  obtain ⟨⟨_, bytes⟩, hbeacon, rfl⟩ := List.mem_map.mp hmem
  exact ⟨hsettled, bytes, hbeacon, beacons_backed hsettled hbeacon⟩

end

end Roots.Client
