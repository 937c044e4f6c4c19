import Roots.Client.Discovery
import Roots.Lib.Str

/-!
# Roots.Client.Rebind

What becomes of a bind that fails. `announce` notes the address when it asks for a listener, and
nothing takes that note back when the client could not bind: `listener_stale` only looks at the
address and at whether the interface is still there. **An interface that has asked once does not
ask again** while it stays in the scan with its address, so after one failed bind it has no
listener for as long as it is there.

The scan is that of `scan_interfaces`: one row for each name, with the options of the first
configured row that matches it. How a pattern is matched is the regex library's affair.
-/

namespace Roots.Client

/-! ## The scan -/

/-- `MulticastRow`. -/
structure MulticastRow where
  regex : Text
  beacon : Bool
  listen : Bool
  port : UInt16
  priority : UInt8
  password : Text

/-- `config_for`, with `matches` for the regex library. -/
def configFor (isMatch : Text → Text → Bool) (rows : List MulticastRow) (name : Text) :
    Option MulticastRow :=
  rows.find? fun row =>
    (row.beacon || row.listen) && isMatch row.regex name && (Str.utf8 row.password).length ≤ 64

/-- `scan_interfaces`, of the addresses of each adapter. -/
def scanInterfaces (isMatch : Text → Text → Bool) (rows : List MulticastRow)
    (adapters : List (Text × List Address)) : List InterfaceConfig :=
  adapters.filterMap fun adapter =>
    (configFor isMatch rows adapter.1).bind fun row =>
      adapter.2.head?.map fun linkLocal =>
        { name := adapter.1
          linkLocal
          beacon := row.beacon
          listen := row.listen
          port := row.port
          priority := row.priority
          password := Str.utf8 row.password }

/-- What comes to the discovery task, round by round. Adapters have distinct names. -/
structure Host where
  isMatch : Text → Text → Bool
  rows : List MulticastRow
  adapters : Nat → List (Text × List Address)
  distinct : ∀ n, ((adapters n).map Prod.fst).Nodup
  now : Nat → Instant
  binds : Nat → Text → Option UInt16

namespace Host

def round (host : Host) (n : Nat) : Round :=
  ⟨scanInterfaces host.isMatch host.rows (host.adapters n), host.now n, host.binds n⟩

variable [Blake2]

/-- The task before round `n`. -/
def before (host : Host) (pubkey : Key) : Nat → Discovery
  | 0 => .init pubkey
  | n + 1 => (host.before pubkey n).round (host.round n)

/-- The tick of round `n` asks for a listener. -/
def Asks (host : Host) (pubkey : Key) (n : Nat) (iface : Text) (addr : Address) : Prop :=
  ∃ port, .bind iface addr port ∈ ((host.before pubkey n).ticked (host.round n)).out

/-- Round `n` asks for a listener, and the listener that is spawned for it fails. -/
def BindFails (host : Host) (pubkey : Key) (n : Nat) (iface : Text) (addr : Address) : Prop :=
  host.Asks pubkey n iface addr ∧ iface ∉ (host.before pubkey n).listeners ∧
    host.binds n iface = none

omit [Blake2] in
/-- From then on, the interface stays in the scan with its address, and may send beacons. -/
def Stays (host : Host) (n : Nat) (iface : Text) (addr : Address) : Prop :=
  ∀ m > n, ∃ cfg ∈ (host.round m).scan, cfg.name = iface ∧ cfg.linkLocal = addr ∧
    cfg.beacon = true

end Host

theorem scanInterfaces_names (isMatch : Text → Text → Bool) (rows : List MulticastRow)
    (adapters : List (Text × List Address)) :
    ((scanInterfaces isMatch rows adapters).map InterfaceConfig.name).Sublist
      (adapters.map Prod.fst) := by
  induction adapters with
  | nil => exact List.Sublist.refl _
  | cons adapter adapters ih =>
    rw [scanInterfaces, List.filterMap_cons]
    split
    · exact ih.cons _
    · rename_i cfg hcfg
      obtain ⟨row, -, hrow⟩ := Option.bind_eq_some_iff.mp hcfg
      obtain ⟨addr, -, rfl⟩ := Option.map_eq_some_iff.mp hrow
      exact ih.cons_cons _

/-- The machine takes every interface of a scan. -/
theorem scanInterfaces_accepted {isMatch : Text → Text → Bool} {rows : List MulticastRow}
    {adapters : List (Text × List Address)} {cfg : InterfaceConfig}
    (h : cfg ∈ scanInterfaces isMatch rows adapters) :
    ¬ ((¬ cfg.beacon ∧ ¬ cfg.listen) ∨ maxPasswordLen < cfg.password.length) := by
  obtain ⟨adapter, -, hcfg⟩ := List.mem_filterMap.mp h
  obtain ⟨row, hfind, hrow⟩ := Option.bind_eq_some_iff.mp hcfg
  obtain ⟨addr, -, rfl⟩ := Option.map_eq_some_iff.mp hrow
  have hprop := List.find?_some hfind
  simp only [Bool.and_eq_true, Bool.or_eq_true, decide_eq_true_eq] at hprop
  obtain ⟨⟨hflags, -⟩, hlen⟩ := hprop
  dsimp only
  rw [maxPasswordLen]
  rintro (⟨hbeacon, hlisten⟩ | hlong)
  · rcases hflags with hflag | hflag
    · exact hbeacon hflag
    · exact hlisten hflag
  · omega

/-! ## What a scan does to one interface -/

section Scan

variable [Blake2]

theorem setInterface_other (pubkey : Key) {name : Text} {cfg : InterfaceConfig}
    (h : cfg.name ≠ name) (tables : Assoc Text IfaceState × Assoc Text IfaceState) :
    (Multicast.setInterface pubkey tables cfg).1.lookup name = tables.1.lookup name ∧
      (Multicast.setInterface pubkey tables cfg).2.lookup name = tables.2.lookup name := by
  unfold Multicast.setInterface
  split_ifs
  · exact ⟨rfl, rfl⟩
  · exact ⟨by rw [Assoc.lookup_insert_ite, if_neg (Ne.symm h)],
      by rw [Assoc.lookup_erase_ite, if_neg (Ne.symm h)]⟩

theorem setInterface_others (pubkey : Key) {name : Text} {scan : List InterfaceConfig}
    (h : ∀ cfg ∈ scan, cfg.name ≠ name) (tables : Assoc Text IfaceState × Assoc Text IfaceState) :
    (scan.foldl (Multicast.setInterface pubkey) tables).1.lookup name = tables.1.lookup name ∧
      (scan.foldl (Multicast.setInterface pubkey) tables).2.lookup name = tables.2.lookup name := by
  induction scan generalizing tables with
  | nil => exact ⟨rfl, rfl⟩
  | cons cfg scan ih =>
    have ⟨hcfg, hscan⟩ := List.forall_mem_cons.mp h
    have ⟨hnext, hrest⟩ := setInterface_other pubkey hcfg tables
    have ⟨hnext', hrest'⟩ := ih hscan (Multicast.setInterface pubkey tables cfg)
    exact ⟨hnext'.trans hnext, hrest'.trans hrest⟩

omit [Blake2] in
theorem keepBound_others {name : Text} {l : List (Text × IfaceState)}
    (h : ∀ e ∈ l, e.1 ≠ name) (next : Assoc Text IfaceState) :
    (l.foldl Multicast.keepBound next).lookup name = next.lookup name := by
  induction l generalizing next with
  | nil => rfl
  | cons e l ih =>
    have ⟨he, hl⟩ := List.forall_mem_cons.mp h
    rw [List.foldl_cons, ih hl]
    unfold Multicast.keepBound
    split_ifs
    · rfl
    · rw [Assoc.lookup_insert_ite, if_neg (Ne.symm he)]

/-- An interface of the scan keeps its state, with the new configuration. -/
theorem lookup_setInterfaces (m : Multicast) {scan : List InterfaceConfig}
    (hdistinct : (scan.map InterfaceConfig.name).Nodup) {cfg : InterfaceConfig} (hcfg : cfg ∈ scan)
    (haccepted : ¬ ((¬ cfg.beacon ∧ ¬ cfg.listen) ∨ maxPasswordLen < cfg.password.length)) :
    (m.setInterfaces scan).ifaces.lookup cfg.name =
      some { (m.ifaces.lookup cfg.name).getD
          (.fresh (membershipHash cfg.password m.localPubkey)) with
        cfg := some cfg
        hash := membershipHash cfg.password m.localPubkey } := by
  obtain ⟨front, back, rfl⟩ := List.append_of_mem hcfg
  rw [List.map_append, List.map_cons, List.nodup_append, List.nodup_cons] at hdistinct
  obtain ⟨-, ⟨hback, -⟩, hfront⟩ := hdistinct
  have hfront' : ∀ other ∈ front, other.name ≠ cfg.name := fun other hother =>
    hfront _ (List.mem_map_of_mem hother) _ List.mem_cons_self
  have hback' : ∀ other ∈ back, other.name ≠ cfg.name := fun other hother heq =>
    hback (heq ▸ List.mem_map_of_mem hother)
  -- The tables before the interface, after it, and at the end of the scan.
  obtain ⟨start, hstart⟩ :
      ∃ t, t = front.foldl (Multicast.setInterface m.localPubkey) (∅, m.ifaces) := ⟨_, rfl⟩
  obtain ⟨taken, htaken⟩ : ∃ t, t = Multicast.setInterface m.localPubkey start cfg := ⟨_, rfl⟩
  have hold : start.2.lookup cfg.name = m.ifaces.lookup cfg.name := by
    rw [hstart]
    exact (setInterface_others m.localPubkey hfront' _).2
  have htables : taken = (start.1.insert cfg.name
      { (start.2.lookup cfg.name).getD (.fresh (membershipHash cfg.password m.localPubkey)) with
        cfg := some cfg
        hash := membershipHash cfg.password m.localPubkey }, start.2.erase cfg.name) := by
    rw [htaken, Multicast.setInterface, if_neg haccepted]
  have ⟨hnext, hrest⟩ := setInterface_others m.localPubkey hback' taken
  have hfold : (front ++ cfg :: back).foldl (Multicast.setInterface m.localPubkey)
      (∅, m.ifaces) = back.foldl (Multicast.setInterface m.localPubkey) taken := by
    rw [List.foldl_append, List.foldl_cons, ← hstart, ← htaken]
  rw [Multicast.setInterfaces, hfold]
  dsimp only
  rw [keepBound_others, hnext, htables, Assoc.lookup_insert_ite, if_pos rfl, hold]
  intro e he heq
  have hlookup := Assoc.mem_toList.mp he
  rw [heq, hrest, htables, Assoc.lookup_erase_ite, if_pos rfl] at hlookup
  cases hlookup

end Scan

/-! ## What an announce does to one interface -/

section Announce

variable {iface : Text} {addr : Address}

/-- The interface has asked for a listener at an address. -/
def HasAsked (ifaces : Assoc Text IfaceState) (iface : Text) (addr : Address) : Prop :=
  ∃ st, ifaces.lookup iface = some st ∧ st.bindAddr = some addr

theorem bind_of_beaconIface {pubkey : Key} {now : Instant} {name : Text} {cfg : InterfaceConfig}
    {st : IfaceState} {port : UInt16}
    (h : .bind iface addr port ∈ (Multicast.beaconIface pubkey now name cfg st).1) :
    iface = name ∧ st.bindAddr = none ∧
      (Multicast.beaconIface pubkey now name cfg st).2.bindAddr = some addr := by
  unfold Multicast.beaconIface at h ⊢
  by_cases hbind : st.bindAddr.isNone = true
  · rw [if_pos hbind] at h ⊢
    cases List.mem_singleton.mp h
    exact ⟨rfl, Option.isNone_iff_eq_none.mp hbind, rfl⟩
  · rw [if_neg hbind] at h
    cases hport : st.listenerPort with
    | none =>
      rw [hport] at h
      exact absurd h List.not_mem_nil
    | some p =>
      rw [hport] at h
      dsimp only at h
      split_ifs at h
      · exact absurd h List.not_mem_nil
      all_goals cases List.mem_singleton.mp h

/-- A request for a listener is for the interface it is made by, which has none. -/
theorem bind_of_announceIface {pubkey : Key} {now : Instant} {name : Text} {st : IfaceState}
    {port : UInt16} (h : .bind iface addr port ∈ (Multicast.announceIface pubkey now name st).1) :
    iface = name ∧ st.bindAddr = none ∧
      (Multicast.announceIface pubkey now name st).2.bindAddr = some addr := by
  unfold Multicast.announceIface at h ⊢
  cases hcfg : st.cfg with
  | none =>
    rw [hcfg] at h
    exact absurd h List.not_mem_nil
  | some cfg =>
    rw [hcfg] at h
    dsimp only at h ⊢
    split_ifs at h ⊢ with hbeacon
    · exact bind_of_beaconIface h
    · exact absurd h List.not_mem_nil

/-- A request that was made stays, with the configuration. -/
theorem announceIface_keeps (pubkey : Key) (now : Instant) (name : Text) {st : IfaceState}
    (h : st.bindAddr = some addr) :
    (Multicast.announceIface pubkey now name st).2.bindAddr = some addr ∧
      (Multicast.announceIface pubkey now name st).2.cfg = st.cfg := by
  refine ⟨?_, (announceIface_cases pubkey now name st).1⟩
  unfold Multicast.announceIface
  cases st.cfg with
  | none => exact h
  | some cfg =>
    dsimp only
    split_ifs
    · unfold Multicast.beaconIface
      rw [if_neg (by simp [h])]
      cases st.listenerPort with
      | none => exact h
      | some port =>
        dsimp only
        split_ifs <;> exact h
    · exact h

/-- An announce so far: the interface is as it was, and has asked for nothing. -/
structure Silent (iface : Text) (addr : Address) (acc : List Command × Assoc Text IfaceState) :
    Prop where
  silent : ∀ a port, .bind iface a port ∉ acc.1
  asked : ∃ st, acc.2.lookup iface = some st ∧ st.bindAddr = some addr ∧
    ∃ cfg, st.cfg = some cfg ∧ cfg.linkLocal = addr

theorem sweepIface_silent {acc : List Command × Assoc Text IfaceState} (h : Silent iface addr acc)
    (name : Text) : Silent iface addr (Multicast.sweepIface acc name) := by
  obtain ⟨hsilent, st, hst, hbind, cfg, hcfg, haddr⟩ := h
  unfold Multicast.sweepIface
  cases hlookup : acc.2.lookup name with
  | none => exact ⟨hsilent, st, hst, hbind, cfg, hcfg, haddr⟩
  | some st' =>
    dsimp only
    split_ifs with hstale
    · have hname : iface ≠ name := by
        rintro rfl
        rw [hst] at hlookup
        cases hlookup
        simp [IfaceState.listenerStale, hbind, hcfg, haddr] at hstale
      refine ⟨by simpa using hsilent, st, ?_, hbind, cfg, hcfg, haddr⟩
      rw [Assoc.lookup_insert_ite, if_neg hname]
      exact hst
    · exact ⟨hsilent, st, hst, hbind, cfg, hcfg, haddr⟩

theorem announceStep_silent {acc : List Command × Assoc Text IfaceState}
    (h : Silent iface addr acc) (pubkey : Key) (now : Instant) (name : Text) :
    Silent iface addr (Multicast.announceStep pubkey now acc name) := by
  obtain ⟨hsilent, st, hst, hbind, cfg, hcfg, haddr⟩ := h
  unfold Multicast.announceStep
  cases hlookup : acc.2.lookup name with
  | none => exact ⟨hsilent, st, hst, hbind, cfg, hcfg, haddr⟩
  | some st' =>
    dsimp only
    constructor
    · intro a port hmem
      rcases List.mem_append.mp hmem with hmem | hmem
      · exact hsilent a port hmem
      · obtain ⟨rfl, hnone, -⟩ := bind_of_announceIface hmem
        rw [hst] at hlookup
        cases hlookup
        rw [hbind] at hnone
        cases hnone
    · rw [Assoc.lookup_insert_ite]
      split_ifs with hname
      · subst hname
        rw [hst] at hlookup
        cases hlookup
        have ⟨hbind', hcfg'⟩ := announceIface_keeps pubkey now iface hbind
        exact ⟨_, rfl, hbind', cfg, hcfg'.trans hcfg, haddr⟩
      · exact ⟨st, hst, hbind, cfg, hcfg, haddr⟩

/-- **An interface that has asked once and whose address is the same does not ask again.** -/
theorem announce_silent {m : Multicast} {st : IfaceState} {cfg : InterfaceConfig}
    (hst : m.ifaces.lookup iface = some st) (hbind : st.bindAddr = some addr)
    (hcfg : st.cfg = some cfg) (haddr : cfg.linkLocal = addr) (now : Instant) :
    (∀ a port, .bind iface a port ∉ (m.announce now).1) ∧
      HasAsked (m.announce now).2.ifaces iface addr := by
  have hstart : Silent iface addr ([], m.ifaces) :=
    ⟨fun _ _ => List.not_mem_nil, st, hst, hbind, cfg, hcfg, haddr⟩
  have hswept := List.foldlRecOn (motive := Silent iface addr) m.names Multicast.sweepIface hstart
    fun _ hacc name _ => sweepIface_silent hacc name
  have hdone := List.foldlRecOn (motive := Silent iface addr) m.names
    (Multicast.announceStep m.localPubkey now) hswept
    fun _ hacc name _ => announceStep_silent hacc m.localPubkey now name
  obtain ⟨hsilent, st', hst', hbind', -⟩ := hdone
  exact ⟨hsilent, st', hst', hbind'⟩

/-- What an announce asked for is noted. -/
theorem announce_asked {m : Multicast} {now : Instant} {port : UInt16}
    (h : .bind iface addr port ∈ (m.announce now).1) :
    HasAsked (m.announce now).2.ifaces iface addr := by
  have hsweep : ∀ a p, .bind iface a p ∉ (m.names.foldl Multicast.sweepIface ([], m.ifaces)).1 := by
    refine List.foldlRecOn (motive := fun acc : List Command × Assoc Text IfaceState =>
        ∀ a p, .bind iface a p ∉ acc.1) m.names Multicast.sweepIface (b := ([], m.ifaces))
      (fun _ _ => List.not_mem_nil) fun acc hacc name _ => ?_
    unfold Multicast.sweepIface
    cases acc.2.lookup name with
    | none => exact hacc
    | some st =>
      dsimp only
      split_ifs
      · simpa using hacc
      · exact hacc
  refine List.foldlRecOn (motive := fun acc : List Command × Assoc Text IfaceState =>
      ∀ a p, .bind iface a p ∈ acc.1 → HasAsked acc.2 iface a) m.names
    (Multicast.announceStep m.localPubkey now) (fun a p hmem => absurd hmem (hsweep a p))
    (fun acc hacc name _ a p hmem => ?_) addr port h
  unfold Multicast.announceStep at hmem ⊢
  cases hlookup : acc.2.lookup name with
  | none =>
    rw [hlookup] at hmem
    exact hacc a p hmem
  | some st =>
    rw [hlookup] at hmem
    dsimp only at hmem ⊢
    rcases List.mem_append.mp hmem with hmem | hmem
    · obtain ⟨st', hst', hbind'⟩ := hacc a p hmem
      rw [HasAsked, Assoc.lookup_insert_ite]
      split_ifs with hname
      · subst hname
        rw [hst'] at hlookup
        cases hlookup
        exact ⟨_, rfl, (announceIface_keeps m.localPubkey now iface hbind').1⟩
      · exact ⟨st', hst', hbind'⟩
    · obtain ⟨rfl, -, hbind⟩ := bind_of_announceIface hmem
      exact ⟨_, by rw [Assoc.lookup_insert_ite, if_pos rfl], hbind⟩

end Announce

/-! ## Rounds -/

section Rounds

variable [Blake2] {iface : Text} {addr : Address}

omit [Blake2] in
theorem inner_foldl_carryOut (binds : Text → Option UInt16) (commands : List Command)
    (d : Discovery) : (commands.foldl (Discovery.carryOut binds) d).inner = d.inner := by
  induction commands generalizing d with
  | nil => rfl
  | cons c commands ih =>
    rw [List.foldl_cons, ih]
    cases c with
    | bind iface addr port =>
      simp only [Discovery.carryOut]
      split_ifs
      · rfl
      · cases binds iface <;> rfl
    | beacon iface bytes => rfl
    | unbind iface => rfl

omit [Blake2] in
theorem bind_of_forwarded {commands : List Command} {port : UInt16}
    (h : .bind iface addr port ∈ commands.filterMap forwarded) :
    ∃ port', .bind iface addr port' ∈ commands := by
  obtain ⟨c, hc, hforward⟩ := List.mem_filterMap.mp h
  cases c with
  | bind iface' addr' port' =>
    cases hforward
    exact ⟨port', hc⟩
  | beacon _ _ => cases hforward
  | unbind _ => cases hforward

omit [Blake2] in
theorem hasAsked_report {m : Multicast} (h : HasAsked m.ifaces iface addr)
    (bind : Text → Option UInt16) (scan : List InterfaceConfig) :
    HasAsked (scan.foldl (report bind) m).ifaces iface addr := by
  refine List.foldlRecOn (motive := fun m : Multicast => HasAsked m.ifaces iface addr) scan
    (report bind) h fun m ⟨st, hst, hbind⟩ cfg _ => ?_
  unfold report
  cases bind cfg.name with
  | none => exact ⟨st, hst, hbind⟩
  | some port =>
    have hlookup : (m.listenerUp cfg.name port).ifaces.lookup iface =
        if iface = cfg.name then some { st with listenerPort := some port } else some st := by
      rw [Multicast.listenerUp]
      dsimp only
      rw [Assoc.lookup_modify, hst]
      rfl
    dsimp only
    rw [HasAsked, hlookup]
    split_ifs
    · exact ⟨_, rfl, hbind⟩
    · exact ⟨st, rfl, hbind⟩

/-- A round in which an interface that has asked is in the scan with its address. -/
theorem round_silent {d : Discovery} (h : HasAsked d.inner.ifaces iface addr) {r : Round}
    (hdistinct : (r.scan.map InterfaceConfig.name).Nodup) {cfg : InterfaceConfig}
    (hcfg : cfg ∈ r.scan) (hname : cfg.name = iface) (haddr : cfg.linkLocal = addr)
    (haccepted : ¬ ((¬ cfg.beacon ∧ ¬ cfg.listen) ∨ maxPasswordLen < cfg.password.length)) :
    (∀ a port, .bind iface a port ∉ (d.ticked r).out) ∧
      HasAsked (d.round r).inner.ifaces iface addr := by
  obtain ⟨st, hst, hbind⟩ := hasAsked_report h d.listeners.lookup r.scan
  have hscanned := lookup_setInterfaces (r.scan.foldl (report d.listeners.lookup) d.inner)
    hdistinct hcfg haccepted
  rw [hname, hst] at hscanned
  have ⟨hsilent, hasked⟩ := announce_silent hscanned hbind rfl haddr r.now
  constructor
  · intro a port hmem
    obtain ⟨port', hmem⟩ := bind_of_forwarded hmem
    exact hsilent a port' hmem
  · rw [Discovery.round, inner_foldl_carryOut]
    exact hasked

theorem hasAsked_of_bind {d : Discovery} {r : Round} {port : UInt16}
    (h : .bind iface addr port ∈ (d.ticked r).out) :
    HasAsked (d.round r).inner.ifaces iface addr := by
  obtain ⟨port', hmem⟩ := bind_of_forwarded h
  rw [Discovery.round, inner_foldl_carryOut]
  exact announce_asked hmem

namespace Host

variable {host : Host} {pubkey : Key} {n : Nat}

/-- After a request, the interface asks for nothing more as long as it stays. -/
theorem not_asks_of_stays (hasks : host.Asks pubkey n iface addr)
    (hstays : host.Stays n iface addr) {m : Nat} (hm : n < m) :
    (∀ a, ¬ host.Asks pubkey m iface a) ∧
      HasAsked (host.before pubkey m).inner.ifaces iface addr := by
  have hround : ∀ m > n, HasAsked (host.before pubkey m).inner.ifaces iface addr →
      (∀ a, ¬ host.Asks pubkey m iface a) ∧
        HasAsked (host.before pubkey (m + 1)).inner.ifaces iface addr := by
    intro m hm hasked
    obtain ⟨cfg, hcfg, hname, haddr, -⟩ := hstays m hm
    have hdistinct := (scanInterfaces_names host.isMatch host.rows (host.adapters m)).nodup
      (host.distinct m)
    have ⟨hsilent, hnext⟩ := round_silent hasked hdistinct hcfg hname haddr
      (scanInterfaces_accepted hcfg)
    exact ⟨fun a ⟨port, hbind⟩ => hsilent a port hbind, hnext⟩
  have hasked : HasAsked (host.before pubkey m).inner.ifaces iface addr := by
    induction m, hm using Nat.le_induction with
    | base =>
      obtain ⟨port, hbind⟩ := hasks
      exact hasAsked_of_bind hbind
    | succ m hm ih => exact (hround m hm ih).2
  exact ⟨(hround m hm hasked).1, hasked⟩

/-- **A failed bind is never retried.** Of an interface that stays in the scan with its address,
that a later tick asks for a listener after the bind of round `n` has failed is true only where
that bind has not failed. -/
theorem rebind_iff (host : Host) (pubkey : Key) (iface : Text) (addr : Address) (n : Nat) :
    (host.BindFails pubkey n iface addr → host.Stays n iface addr →
        ∃ m > n, ∃ a, host.Asks pubkey m iface a) ↔
      ¬ (host.BindFails pubkey n iface addr ∧ host.Stays n iface addr) := by
  constructor
  · intro hretry ⟨hfails, hstays⟩
    obtain ⟨m, hm, a, hasks⟩ := hretry hfails hstays
    exact (not_asks_of_stays hfails.1 hstays hm).1 a hasks
  · intro hnot hfails hstays
    exact absurd ⟨hfails, hstays⟩ hnot

end Host

end Rounds

/-! ## A bind that fails -/

section

attribute [local instance] constBlake2

/-- One adapter that stays, and no listener that can be bound. -/
def unbindable : Host where
  isMatch _ _ := true
  rows := [⟨[], true, true, 0, 0, []⟩]
  adapters _ := [(['e'], [(ethConfig 1).linkLocal])]
  distinct _ := by simp
  now n := seconds n
  binds _ _ := none

theorem unbindable_asks :
    .bind ['e'] (ethConfig 1).linkLocal 0 ∈
      (((unbindable.before (List.Vector.replicate 32 7) 0)).ticked (unbindable.round 0)).out := by
  decide +kernel

/-- The bind of the first round fails, the interface stays, and it is not tried again. -/
theorem bind_not_retried :
    unbindable.BindFails (List.Vector.replicate 32 7) 0 ['e'] (ethConfig 1).linkLocal ∧
      unbindable.Stays 0 ['e'] (ethConfig 1).linkLocal ∧
      ¬ ∃ m > 0, ∃ a, unbindable.Asks (List.Vector.replicate 32 7) m ['e'] a := by
  have hfails : unbindable.BindFails (List.Vector.replicate 32 7) 0 ['e'] (ethConfig 1).linkLocal :=
    ⟨⟨0, unbindable_asks⟩, AList.notMem_empty _, rfl⟩
  have hstays : unbindable.Stays 0 ['e'] (ethConfig 1).linkLocal :=
    fun m _ => ⟨_, List.mem_singleton.mpr rfl, rfl, rfl, rfl⟩
  refine ⟨hfails, hstays, ?_⟩
  intro ⟨m, hm, a, hasks⟩
  exact (Host.not_asks_of_stays hfails.1 hstays hm).1 a hasks

end

end Roots.Client
