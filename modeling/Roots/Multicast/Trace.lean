import Mathlib.Data.List.Induction
import Roots.Multicast

/-!
# Roots.Multicast.Trace

What the state machine of discovery does over time. For every interface there is a trace: the
commands that were given for it and the ports that were reported for it (`Mark`). The part of a
trace after the last `Unbind` is its **period**, and the state of an interface is a function of
its period (`Tracks`): whether it has asked for a listener, the port, the last beacon and how many
there were. Every call keeps that, and every command it gives is one the period allows.
-/

namespace Roots.Multicast

/-! ## Traces -/

/-- A call to the machine. -/
inductive Op where
  | setInterfaces (scan : List InterfaceConfig)
  | announce (now : Instant)
  | listenerUp (iface : Text) (port : UInt16)

/-- What happens to an interface. -/
inductive Mark where
  | bind
  | unbind
  | beacon (time : Instant) (bytes : Bytes)
  | up (port : UInt16)
deriving DecidableEq

/-- What a command is for an interface. -/
def markOf (now : Instant) (iface : Text) : Command → Option Mark
  | .bind name _ _ => if name = iface then some .bind else none
  | .unbind name => if name = iface then some .unbind else none
  | .beacon name bytes => if name = iface then some (.beacon now bytes) else none

/-- The machine, and the trace of every interface. -/
structure Trail where
  machine : Multicast
  marks : Text → List Mark

namespace Trail

def start (pubkey : Key) : Trail := ⟨.new pubkey, fun _ => []⟩

variable [Blake2]

def step (t : Trail) : Op → Trail
  | .setInterfaces scan => { t with machine := t.machine.setInterfaces scan }
  | .announce now =>
      let (commands, machine) := t.machine.announce now
      ⟨machine, fun iface => t.marks iface ++ commands.filterMap (markOf now iface)⟩
  | .listenerUp iface port =>
      ⟨t.machine.listenerUp iface port, fun name =>
        if name = iface then t.marks name ++ [.up port] else t.marks name⟩

def run (t : Trail) (ops : List Op) : Trail := ops.foldl step t

end Trail

/-- The names of a scan are distinct. -/
def Op.Distinct : Op → Prop
  | .setInterfaces scan => (scan.map InterfaceConfig.name).Nodup
  | _ => True

/-! ## Periods -/

/-- What happened since the last `Unbind`. -/
def period (ms : List Mark) : List Mark := (ms.reverse.takeWhile (· ≠ .unbind)).reverse

def Mark.time? : Mark → Option Instant
  | .beacon time _ => some time
  | _ => none

def Mark.port? : Mark → Option UInt16
  | .up port => some port
  | _ => none

/-- The times of the beacons. -/
def beacons (ms : List Mark) : List Instant := ms.filterMap Mark.time?

/-- The port that was reported last. -/
def lastUp (ms : List Mark) : Option UInt16 := (ms.filterMap Mark.port?).getLast?

/-- The `Bind`s and the `Unbind`s. -/
def switches (ms : List Mark) : List Mark := ms.filter fun m => m = .bind ∨ m = .unbind

@[simp]
theorem period_nil : period [] = [] := rfl

@[simp]
theorem period_unbind (ms : List Mark) : period (ms ++ [.unbind]) = [] := by
  simp [period]

theorem period_append {m : Mark} (ms : List Mark) (h : m ≠ .unbind) :
    period (ms ++ [m]) = period ms ++ [m] := by
  rw [period, List.reverse_append, List.reverse_singleton, List.singleton_append,
    List.takeWhile_cons_of_pos (by simpa using h), List.reverse_cons]
  rfl

/-- What may happen next to an interface. -/
def Allowed (ms : List Mark) : Mark → Prop
  | .bind => .bind ∉ period ms
  | .unbind => .bind ∈ period ms
  | .beacon time bytes =>
      .bind ∈ period ms ∧
        (∃ adv, Advertisement.decode bytes = .ok adv ∧ lastUp (period ms) = some adv.port) ∧
        ∀ last, (beacons (period ms)).getLast? = some last →
          last + seconds (min (beacons (period ms)).length 15) ≤ time
  | .up _ => True

/-- Everything that happened was allowed. -/
def Lawful (ms : List Mark) : Prop :=
  ∀ before m after, ms = before ++ m :: after → Allowed before m

theorem lawful_nil : Lawful [] := by
  intro before m after h
  simp at h

theorem Lawful.append {ms : List Mark} (h : Lawful ms) {m : Mark} (hm : Allowed ms m) :
    Lawful (ms ++ [m]) := by
  intro before m' after heq
  cases after using List.reverseRecOn with
  | nil =>
    obtain ⟨rfl, hlast⟩ := List.append_inj' heq rfl
    cases hlast
    exact hm
  | append_singleton after x =>
    have hsplit : ms ++ [m] = (before ++ m' :: after) ++ [x] := by simpa using heq
    exact h before m' after (List.append_inj' hsplit rfl).1

/-! ## The state of an interface -/

/-- The state says what the period says. -/
structure Tracks (ms : List Mark) (st : IfaceState) : Prop where
  bound : st.bindAddr ≠ none ↔ .bind ∈ period ms
  port : ∀ p, st.listenerPort = some p → lastUp (period ms) = some p
  last : st.lastBeacon = (beacons (period ms)).getLast?
  interval : st.interval = seconds (min (beacons (period ms)).length 15)
  quiet : st.bindAddr = none → beacons (period ms) = []

/-- An interface that is not in the table has no listener and has sent nothing. -/
def Agrees (ms : List Mark) : Option IfaceState → Prop
  | some st => Tracks ms st
  | none => .bind ∉ period ms ∧ beacons (period ms) = []

section Tracks

variable {ms : List Mark} {st st' : IfaceState}

/-- Only four fields of a state matter. -/
theorem Tracks.congr (h : Tracks ms st) (hbind : st'.bindAddr = st.bindAddr)
    (hport : st'.listenerPort = st.listenerPort) (hlast : st'.lastBeacon = st.lastBeacon)
    (hinterval : st'.interval = st.interval) : Tracks ms st' := by
  constructor
  · rw [hbind]
    exact h.bound
  · rw [hport]
    exact h.port
  · rw [hlast]
    exact h.last
  · rw [hinterval]
    exact h.interval
  · rw [hbind]
    exact h.quiet

theorem Tracks.forget (h : Tracks ms st) (hbind : st.bindAddr = none) : Agrees ms none :=
  ⟨fun hmem => h.bound.mpr hmem hbind, h.quiet hbind⟩

theorem tracks_fresh (h : Agrees ms none) (hash : List.Vector UInt8 64) :
    Tracks ms (.fresh hash) := by
  obtain ⟨hbind, hquiet⟩ := h
  refine ⟨?_, ?_, ?_, ?_, fun _ => hquiet⟩
  · exact iff_of_false (fun hne => hne rfl) hbind
  · intro p hp
    cases hp
  · rw [hquiet]
    rfl
  · rw [hquiet]
    rfl

/-- A listener that is given up ends the period. -/
theorem Tracks.unbind (h : Tracks ms st) (hstale : st.listenerStale = true) :
    Allowed ms .unbind ∧ Tracks (ms ++ [.unbind]) st.reset := by
  constructor
  · refine h.bound.mp fun hnone => ?_
    rw [IfaceState.listenerStale, hnone] at hstale
    cases hstale
  · constructor
    · simp [IfaceState.reset]
    · intro p hp
      cases hp
    · simp [IfaceState.reset, beacons]
    · simp [IfaceState.reset, beacons, seconds]
    · simp [beacons]

/-- A request for a listener. -/
theorem Tracks.bind (h : Tracks ms st) (hbind : st.bindAddr = none) (addr : Address) :
    Allowed ms .bind ∧ Tracks (ms ++ [.bind]) { st with bindAddr := some addr } := by
  have hbeacons : beacons (period ms ++ [.bind]) = beacons (period ms) := by
    simp [beacons, Mark.time?]
  have hup : lastUp (period ms ++ [.bind]) = lastUp (period ms) := by
    simp [lastUp, Mark.port?]
  refine ⟨fun hmem => h.bound.mpr hmem hbind, ?_⟩
  constructor
  · simp [period_append]
  · rw [period_append _ (by decide), hup]
    exact h.port
  · rw [period_append _ (by decide), hbeacons]
    exact h.last
  · rw [period_append _ (by decide), hbeacons]
    exact h.interval
  · intro hnone
    cases hnone

/-- A port that is reported. -/
theorem Tracks.up (h : Tracks ms st) (port : UInt16) :
    Tracks (ms ++ [.up port]) { st with listenerPort := some port } := by
  have hbeacons : beacons (period ms ++ [.up port]) = beacons (period ms) := by
    simp [beacons, Mark.time?]
  have hperiod := period_append ms (m := .up port) (by simp)
  constructor
  · rw [hperiod]
    simpa using h.bound
  · intro p hp
    cases hp
    rw [hperiod]
    simp [lastUp, Mark.port?]
  · rw [hperiod, hbeacons]
    exact h.last
  · rw [hperiod, hbeacons]
    exact h.interval
  · rw [hperiod, hbeacons]
    exact h.quiet

/-- A beacon that is due. -/
theorem Tracks.beacon (h : Tracks ms st) (hbind : st.bindAddr ≠ none) {port : UInt16}
    (hport : st.listenerPort = some port) {now : Instant}
    (hdue : (st.lastBeacon.any fun last => now - last < st.interval) = false) (pubkey : Key) :
    Allowed ms (.beacon now (Advertisement.encode ⟨0, 5, pubkey, port, st.hash.toList⟩)) ∧
      Tracks (ms ++ [.beacon now (Advertisement.encode ⟨0, 5, pubkey, port, st.hash.toList⟩)])
        { st with
          lastBeacon := some now
          interval := if st.interval < maxInterval then st.interval + seconds 1
            else st.interval } := by
  obtain ⟨bytes, hbytes⟩ :
      ∃ bytes, bytes = Advertisement.encode ⟨0, 5, pubkey, port, st.hash.toList⟩ := ⟨_, rfl⟩
  rw [← hbytes]
  have hperiod := period_append ms (m := .beacon now bytes) (by simp)
  have hbeacons : beacons (period ms ++ [.beacon now bytes]) = beacons (period ms) ++ [now] := by
    simp [beacons, Mark.time?]
  have hup : lastUp (period ms ++ [.beacon now bytes]) = lastUp (period ms) := by
    simp [lastUp, Mark.port?]
  have hinterval := h.interval
  have hdecode : Advertisement.decode bytes = .ok ⟨0, 5, pubkey, port, st.hash.toList⟩ := by
    rw [hbytes]
    exact Advertisement.decode_encode (by simp)
  refine ⟨⟨h.bound.mp hbind, ⟨_, hdecode, h.port port hport⟩, ?_⟩, ?_⟩
  · intro last hlast
    -- A beacon has gone out, so the interval is a second at least and the clock has moved on.
    have hpos : 0 < (beacons (period ms)).length := by
      refine List.length_pos_of_ne_nil fun hnil => ?_
      rw [hnil] at hlast
      cases hlast
    rw [h.last, hlast] at hdue
    have hgap : seconds (min (beacons (period ms)).length 15) ≤ now - last := by
      rw [← hinterval]
      simpa using hdue
    have hsecond : 0 < seconds (min (beacons (period ms)).length 15) := by
      unfold seconds
      omega
    have hlater : last < now := Nat.lt_of_sub_pos (Nat.lt_of_lt_of_le hsecond hgap)
    exact Nat.add_le_of_le_sub' hlater.le hgap
  constructor
  · rw [hperiod]
    simpa using h.bound
  · rw [hperiod, hup]
    exact h.port
  · rw [hperiod, hbeacons]
    simp
  · rw [hperiod, hbeacons, List.length_append, List.length_singleton]
    dsimp only
    rw [hinterval]
    unfold maxInterval seconds
    split_ifs <;> omega
  · intro hnone
    exact absurd hnone hbind

end Tracks

/-! ## The table -/

/-- Everything that happened was allowed, and the table says what the periods say. -/
structure Sound (marks : Text → List Mark) (ifaces : Assoc Text IfaceState) : Prop where
  lawful : ∀ iface, Lawful (marks iface)
  agrees : ∀ iface, Agrees (marks iface) (ifaces.lookup iface)

/-- The traces after commands. -/
def extend (now : Instant) (marks : Text → List Mark) (commands : List Command) :
    Text → List Mark :=
  fun iface => marks iface ++ commands.filterMap (markOf now iface)

theorem extend_append (now : Instant) (marks : Text → List Mark) (commands more : List Command) :
    extend now marks (commands ++ more) = extend now (extend now marks commands) more := by
  funext iface
  rw [extend, extend, extend, List.filterMap_append, List.append_assoc]

theorem extend_nil (now : Instant) (marks : Text → List Mark) : extend now marks [] = marks := by
  funext iface
  exact List.append_nil _

section Sound

variable {marks : Text → List Mark} {ifaces : Assoc Text IfaceState} {name : Text}
  {st st' : IfaceState}

theorem Sound.tracks (h : Sound marks ifaces) (hst : ifaces.lookup name = some st) :
    Tracks (marks name) st := by
  have hname := h.agrees name
  rw [hst] at hname
  exact hname

/-- A state changes in fields that do not matter. -/
theorem Sound.insert (h : Sound marks ifaces) (hst : Tracks (marks name) st') :
    Sound marks (ifaces.insert name st') := by
  refine ⟨h.lawful, fun iface => ?_⟩
  rw [Assoc.lookup_insert_ite]
  split_ifs with heq
  · subst heq
    exact hst
  · exact h.agrees iface

/-- A command for one interface. -/
theorem Sound.command (h : Sound marks ifaces) {now : Instant} {c : Command} {m : Mark}
    (hc : ∀ iface, markOf now iface c = if name = iface then some m else none)
    (hm : Allowed (marks name) m ∧ Tracks (marks name ++ [m]) st') :
    Sound (extend now marks [c]) (ifaces.insert name st') := by
  have hmarks : ∀ iface, extend now marks [c] iface =
      if name = iface then marks iface ++ [m] else marks iface := by
    intro iface
    rw [extend, List.filterMap_cons, hc, List.filterMap_nil]
    split_ifs
    · rfl
    · exact List.append_nil _
  constructor
  · intro iface
    rw [hmarks]
    split_ifs with heq
    · subst heq
      exact (h.lawful name).append hm.1
    · exact h.lawful iface
  · intro iface
    rw [hmarks, Assoc.lookup_insert_ite]
    by_cases heq : iface = name
    · rw [if_pos heq, if_pos heq.symm, heq]
      exact hm.2
    · rw [if_neg heq, if_neg (Ne.symm heq)]
      exact h.agrees iface

/-- The traces and the table in the course of an announce. -/
def Announcing (now : Instant) (marks : Text → List Mark)
    (acc : List Command × Assoc Text IfaceState) : Prop :=
  Sound (extend now marks acc.1) acc.2

theorem sweepIface_announcing {now : Instant} {acc : List Command × Assoc Text IfaceState}
    (h : Announcing now marks acc) (name : Text) :
    Announcing now marks (sweepIface acc name) := by
  unfold sweepIface
  cases hst : acc.2.lookup name with
  | none => exact h
  | some st =>
    dsimp only
    split_ifs with hstale
    · rw [Announcing, extend_append]
      exact Sound.command h (fun _ => rfl) ((h.tracks hst).unbind hstale)
    · exact h

/-- One interface of the second loop: a request, a beacon, or nothing. -/
theorem beaconIface_sound (h : Sound marks ifaces) (hst : Tracks (marks name) st)
    (pubkey : Key) (now : Instant) (cfg : InterfaceConfig) :
    Sound (extend now marks (beaconIface pubkey now name cfg st).1)
      (ifaces.insert name (beaconIface pubkey now name cfg st).2) := by
  unfold beaconIface
  by_cases hbind : st.bindAddr = none
  · rw [if_pos (Option.isNone_iff_eq_none.mpr hbind)]
    exact h.command (fun _ => rfl) (hst.bind hbind cfg.linkLocal)
  · rw [if_neg fun hnone => hbind (Option.isNone_iff_eq_none.mp hnone)]
    cases hport : st.listenerPort with
    | none =>
      rw [extend_nil]
      exact h.insert hst
    | some port =>
      dsimp only
      by_cases hdue : (st.lastBeacon.any fun last => now - last < st.interval) = true
      · rw [if_pos hdue, extend_nil]
        exact h.insert hst
      · rw [if_neg hdue]
        have ⟨hallowed, htracks⟩ := hst.beacon hbind hport (Bool.eq_false_iff.mpr hdue) pubkey
        exact h.command (fun _ => rfl) ⟨hallowed, htracks.congr rfl hport.symm rfl rfl⟩

theorem announceStep_announcing {now : Instant} {acc : List Command × Assoc Text IfaceState}
    (h : Announcing now marks acc) (pubkey : Key) (name : Text) :
    Announcing now marks (announceStep pubkey now acc name) := by
  unfold announceStep
  cases hst : acc.2.lookup name with
  | none => exact h
  | some st =>
    have htracks := h.tracks hst
    dsimp only
    rw [Announcing, extend_append]
    unfold announceIface
    cases hcfg : st.cfg with
    | none =>
      dsimp only
      rw [extend_nil]
      exact Sound.insert h htracks
    | some cfg =>
      have hjoined : Tracks (extend now marks acc.1 name)
          { st with cfg := some cfg, joined := st.joined || cfg.listen } :=
        htracks.congr rfl rfl rfl rfl
      dsimp only
      split_ifs with hbeacon
      · exact beaconIface_sound h hjoined pubkey now cfg
      · rw [extend_nil]
        exact Sound.insert h hjoined

theorem announce_sound {m : Multicast} (h : Sound marks m.ifaces) (now : Instant) :
    Sound (extend now marks (m.announce now).1) (m.announce now).2.ifaces := by
  have hstart : Announcing now marks ([], m.ifaces) := by
    rw [Announcing, extend_nil]
    exact h
  have hswept := List.foldlRecOn (motive := Announcing now marks) m.names sweepIface hstart
    fun _ hacc name _ => sweepIface_announcing hacc name
  exact List.foldlRecOn (motive := Announcing now marks) m.names
    (announceStep m.localPubkey now) hswept
    fun _ hacc name _ => announceStep_announcing hacc m.localPubkey name

/-- The two tables of `set_interfaces`, after some interfaces of a scan. -/
structure Sorted (marks : Text → List Mark) (scanned : List Text)
    (next rest : Assoc Text IfaceState) : Prop where
  listed : ∀ name st, next.lookup name = some st → Tracks (marks name) st ∧ name ∈ scanned
  left : ∀ name st, rest.lookup name = some st → Tracks (marks name) st
  absent : ∀ name, next.lookup name = none → rest.lookup name = none → Agrees (marks name) none

variable [Blake2]

theorem setInterface_sorted {scanned : List Text} {pubkey : Key}
    {tables : Assoc Text IfaceState × Assoc Text IfaceState}
    (h : Sorted marks scanned tables.1 tables.2) {cfg : InterfaceConfig}
    (hcfg : cfg.name ∉ scanned) :
    Sorted marks (cfg.name :: scanned) (setInterface pubkey tables cfg).1
      (setInterface pubkey tables cfg).2 := by
  unfold setInterface
  split_ifs with hskip
  · exact ⟨fun name st hst =>
      ⟨(h.listed name st hst).1, List.mem_cons_of_mem _ (h.listed name st hst).2⟩,
      h.left, h.absent⟩
  · have hnew : tables.1.lookup cfg.name = none := by
      cases hnext : tables.1.lookup cfg.name with
      | none => rfl
      | some st => exact absurd (h.listed _ st hnext).2 hcfg
    have hold : Tracks (marks cfg.name)
        ((tables.2.lookup cfg.name).getD (.fresh (membershipHash cfg.password pubkey))) := by
      cases hrest : tables.2.lookup cfg.name with
      | none => exact tracks_fresh (h.absent _ hnew hrest) _
      | some st => exact h.left _ st hrest
    refine ⟨fun name st hst => ?_, fun name st hst => ?_, fun name hnext hrest => ?_⟩
    · rw [Assoc.lookup_insert_ite] at hst
      split_ifs at hst with heq
      · cases hst
        subst heq
        exact ⟨hold.congr rfl rfl rfl rfl, List.mem_cons_self⟩
      · exact ⟨(h.listed name st hst).1, List.mem_cons_of_mem _ (h.listed name st hst).2⟩
    · rw [Assoc.lookup_erase_ite] at hst
      split_ifs at hst
      exact h.left name st hst
    · rw [Assoc.lookup_insert_ite] at hnext
      split_ifs at hnext with heq
      rw [Assoc.lookup_erase_ite, if_neg heq] at hrest
      exact h.absent name hnext hrest

theorem setInterface_fold {pubkey : Key} {scan : List InterfaceConfig} {scanned : List Text}
    {tables : Assoc Text IfaceState × Assoc Text IfaceState}
    (h : Sorted marks scanned tables.1 tables.2)
    (hdistinct : (scan.map InterfaceConfig.name).Nodup)
    (hfresh : ∀ cfg ∈ scan, cfg.name ∉ scanned) :
    ∃ scanned', Sorted marks scanned' (scan.foldl (setInterface pubkey) tables).1
      (scan.foldl (setInterface pubkey) tables).2 := by
  induction scan generalizing tables scanned with
  | nil => exact ⟨scanned, h⟩
  | cons cfg scan ih =>
    have ⟨hcfg, hfresh⟩ := List.forall_mem_cons.mp hfresh
    have ⟨hnew, hdistinct⟩ := List.nodup_cons.mp hdistinct
    refine ih (setInterface_sorted h hcfg) hdistinct fun other hother hmem => ?_
    rcases List.mem_cons.mp hmem with heq | hmem
    · exact hnew (heq ▸ List.mem_map_of_mem hother)
    · exact hfresh other hother hmem

omit [Blake2] in
/-- The interfaces that left the scan: those with a listener stay, the others are forgotten. -/
theorem keepBound_fold {l : List (Text × IfaceState)} {next : Assoc Text IfaceState}
    (hl : ∀ e ∈ l, Tracks (marks e.1) e.2)
    (hnext : ∀ name st, next.lookup name = some st → Tracks (marks name) st)
    (hnone : ∀ name, next.lookup name = none → (∀ e ∈ l, e.1 ≠ name) → Agrees (marks name) none)
    (name : Text) : Agrees (marks name) ((l.foldl keepBound next).lookup name) := by
  induction l generalizing next with
  | nil =>
    cases hlookup : next.lookup name with
    | none =>
      rw [List.foldl_nil, hlookup]
      exact hnone name hlookup (by simp)
    | some st =>
      rw [List.foldl_nil, hlookup]
      exact hnext name st hlookup
  | cons e l ih =>
    have ⟨he, hl⟩ := List.forall_mem_cons.mp hl
    rw [List.foldl_cons]
    unfold keepBound
    by_cases hbind : e.2.bindAddr = none
    · rw [if_pos (Option.isNone_iff_eq_none.mpr hbind)]
      refine ih hl hnext fun name hlookup hothers => ?_
      by_cases hname : e.1 = name
      · rw [← hname]
        exact he.forget hbind
      · exact hnone name hlookup (List.forall_mem_cons.mpr ⟨hname, hothers⟩)
    · rw [if_neg fun h => hbind (Option.isNone_iff_eq_none.mp h)]
      refine ih hl (fun name st hlookup => ?_) fun name hlookup hothers => ?_
      · rw [Assoc.lookup_insert_ite] at hlookup
        split_ifs at hlookup with hname
        · cases hlookup
          rw [hname]
          exact he.congr rfl rfl rfl rfl
        · exact hnext name st hlookup
      · rw [Assoc.lookup_insert_ite] at hlookup
        split_ifs at hlookup with hname
        exact hnone name hlookup (List.forall_mem_cons.mpr ⟨Ne.symm hname, hothers⟩)

theorem setInterfaces_sound {m : Multicast} (h : Sound marks m.ifaces)
    {scan : List InterfaceConfig} (hdistinct : (scan.map InterfaceConfig.name).Nodup) :
    Sound marks (m.setInterfaces scan).ifaces := by
  have hstart : Sorted marks [] ∅ m.ifaces := by
    refine ⟨fun name st hst => (by cases hst), fun name st hst => h.tracks hst, ?_⟩
    intro name _ hrest
    have hname := h.agrees name
    rw [hrest] at hname
    exact hname
  obtain ⟨scanned, hsorted⟩ : ∃ scanned, Sorted marks scanned
      (scan.foldl (setInterface m.localPubkey) (∅, m.ifaces)).1
      (scan.foldl (setInterface m.localPubkey) (∅, m.ifaces)).2 :=
    setInterface_fold hstart hdistinct fun _ _ => List.not_mem_nil
  refine ⟨h.lawful, fun name => ?_⟩
  refine keepBound_fold (fun e he => hsorted.left e.1 e.2 (Assoc.mem_toList.mp he))
    (fun name st hst => (hsorted.listed name st hst).1) (fun name hnext hothers => ?_) name
  refine hsorted.absent name hnext ?_
  cases hrest : (scan.foldl (setInterface m.localPubkey) (∅, m.ifaces)).2.lookup name with
  | none => rfl
  | some st => exact absurd rfl (hothers (name, st) (Assoc.mem_toList.mpr hrest))

end Sound

/-! ## Runs -/

section Runs

variable [Blake2]

theorem step_sound {t : Trail} (h : Sound t.marks t.machine.ifaces) {op : Op}
    (hop : op.Distinct) : Sound (t.step op).marks (t.step op).machine.ifaces := by
  cases op with
  | setInterfaces scan => exact setInterfaces_sound h hop
  | announce now => exact announce_sound h now
  | listenerUp iface port =>
    constructor
    · intro name
      show Lawful (if name = iface then t.marks name ++ [.up port] else t.marks name)
      split_ifs
      · exact (h.lawful name).append trivial
      · exact h.lawful name
    · intro name
      show Agrees (if name = iface then t.marks name ++ [.up port] else t.marks name)
        ((t.machine.ifaces.modify iface fun st => { st with listenerPort := some port }).lookup name)
      rw [Assoc.lookup_modify]
      have hname := h.agrees name
      split_ifs
      · cases hst : t.machine.ifaces.lookup name with
        | none =>
          rw [hst] at hname
          have hperiod := period_append (t.marks name) (m := .up port) (by simp)
          have hbeacons : beacons (period (t.marks name) ++ [.up port]) =
              beacons (period (t.marks name)) := by simp [beacons, Mark.time?]
          rw [Option.map_none, Agrees, hperiod, hbeacons]
          exact ⟨by simpa using hname.1, hname.2⟩
        | some st =>
          rw [hst] at hname
          exact hname.up port
      · exact hname

theorem run_sound {t : Trail} (h : Sound t.marks t.machine.ifaces) {ops : List Op}
    (hops : ∀ op ∈ ops, op.Distinct) : Sound (t.run ops).marks (t.run ops).machine.ifaces := by
  induction ops generalizing t with
  | nil => exact h
  | cons op ops ih =>
    have ⟨hop, hops⟩ := List.forall_mem_cons.mp hops
    exact ih (step_sound h hop) hops

omit [Blake2] in
theorem start_sound (pubkey : Key) :
    Sound (Trail.start pubkey).marks (Trail.start pubkey).machine.ifaces :=
  ⟨fun _ => lawful_nil, fun _ => ⟨by simp [Trail.start], rfl⟩⟩

end Runs

/-! ## What a lawful trace looks like -/

theorem Lawful.of_append {ms : List Mark} {m : Mark} (h : Lawful (ms ++ [m])) :
    Lawful ms ∧ Allowed ms m := by
  constructor
  · intro before m' after heq
    exact h before m' (after ++ [m]) (by rw [heq]; simp)
  · exact h ms m [] rfl

/-- `Bind` and `Unbind` take turns, and a period has a `Bind` after an odd number of them. -/
theorem Lawful.alternates {ms : List Mark} (h : Lawful ms) :
    (.bind ∈ period ms ↔ (switches ms).length % 2 = 1) ∧
      ∀ i m, (switches ms)[i]? = some m → m = if i % 2 = 0 then .bind else .unbind := by
  induction ms using List.reverseRecOn with
  | nil => simp [switches]
  | append_singleton ms m ih =>
    have ⟨hms, hm⟩ := h.of_append
    have ⟨hbound, hturns⟩ := ih hms
    have hsame : m ≠ .bind → m ≠ .unbind → switches (ms ++ [m]) = switches ms ∧
        (.bind ∈ period (ms ++ [m]) ↔ .bind ∈ period ms) := by
      intro hb hu
      constructor
      · simp [switches, hb, hu]
      · rw [period_append ms hu]
        simp [Ne.symm hb]
    have hlast : ∀ turn : Mark, (∀ i, i = (switches ms).length →
        turn = if i % 2 = 0 then .bind else .unbind) → ∀ i m,
        (switches ms ++ [turn])[i]? = some m → m = if i % 2 = 0 then .bind else .unbind := by
      intro turn hturn i m hi
      rcases Nat.lt_trichotomy i (switches ms).length with hlt | heq | hgt
      · rw [List.getElem?_append_left hlt] at hi
        exact hturns i m hi
      · rw [heq, List.getElem?_concat_length] at hi
        cases hi
        exact hturn i heq
      · rw [List.getElem?_eq_none (by rw [List.length_append]; exact hgt)] at hi
        cases hi
    cases m with
    | bind =>
      have hswitch : switches (ms ++ [.bind]) = switches ms ++ [.bind] := by simp [switches]
      have heven : (switches ms).length % 2 = 0 := by
        have hnot := mt hbound.mpr hm
        omega
      rw [hswitch, period_append ms (by decide)]
      refine ⟨iff_of_true (by simp) (by simp; omega), hlast .bind fun i hi => ?_⟩
      rw [hi, if_pos heven]
    | unbind =>
      have hswitch : switches (ms ++ [.unbind]) = switches ms ++ [.unbind] := by simp [switches]
      have hodd := hbound.mp hm
      rw [hswitch, period_unbind]
      refine ⟨iff_of_false (by simp) (by simp; omega), hlast .unbind fun i hi => ?_⟩
      rw [hi, if_neg (by omega)]
    | beacon time bytes =>
      have ⟨hswitch, hperiod⟩ := hsame (by simp) (by simp)
      rw [hswitch, hperiod]
      exact ⟨hbound, hturns⟩
    | up port =>
      have ⟨hswitch, hperiod⟩ := hsame (by simp) (by simp)
      rw [hswitch, hperiod]
      exact ⟨hbound, hturns⟩

/-- **The state machine is well-behaved.** Over any calls, for every interface: `Bind` and
`Unbind` take turns, and `Bind` is first; a beacon comes after a `Bind` of the same period and
carries the port that was reported last in that period; and the gap between the `n`-th and the
next beacon of a period is at least `min n 15` seconds. -/
theorem well_behaved [Blake2] (pubkey : Key) (ops : List Op) (hops : ∀ op ∈ ops, op.Distinct)
    (iface : Text) :
    (∀ i m, (switches (((Trail.start pubkey).run ops).marks iface))[i]? = some m →
        m = if i % 2 = 0 then .bind else .unbind) ∧
      ∀ before time bytes after,
        ((Trail.start pubkey).run ops).marks iface = before ++ .beacon time bytes :: after →
        .bind ∈ period before ∧
          (∃ adv, Advertisement.decode bytes = .ok adv ∧
            lastUp (period before) = some adv.port) ∧
          ∀ last, (beacons (period before)).getLast? = some last →
            last + seconds (min (beacons (period before)).length 15) ≤ time := by
  have hlawful := (run_sound (start_sound pubkey) hops).lawful iface
  exact ⟨hlawful.alternates.2, fun before time bytes after heq => hlawful before _ after heq⟩

section

attribute [local instance] constBlake2

/-- An interface that appears, gets its listener, sends two beacons and disappears. -/
def visit : List Op :=
  let eth : InterfaceConfig := ⟨['e'], List.Vector.replicate 16 1, true, true, 0, 0, []⟩
  [.setInterfaces [eth], .announce 0, .listenerUp ['e'] 5000, .announce (seconds 1),
    .announce (seconds 2), .setInterfaces [], .announce (seconds 3)]

theorem well_behaved_visit :
    (∀ op ∈ visit, op.Distinct) ∧
      ∀ i m, (switches (((Trail.start (List.Vector.replicate 32 0)).run visit).marks ['e']))[i]? =
        some m → m = if i % 2 = 0 then .bind else .unbind := by
  have hvisit : ∀ op ∈ visit, op.Distinct := by
    simp [visit, Op.Distinct]
  exact ⟨hvisit, (well_behaved (List.Vector.replicate 32 0) visit hvisit ['e']).1⟩

example : switches (((Trail.start (List.Vector.replicate 32 0)).run visit).marks ['e']) =
    [.bind, .unbind] := by decide +kernel

end

end Roots.Multicast
