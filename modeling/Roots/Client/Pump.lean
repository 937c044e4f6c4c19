import Roots.Client.Tun

/-!
# Roots.Client.Pump

How often `Device::pump` (`client/src/tun.rs`) reads. Its loop ends after 64 packets, "so a busy
device cannot starve the links". It counts the packets that went to the mesh, though: one that
the mesh should not carry is skipped without being counted, and **a device that offers enough of
those is read on and on** (`pump_reads_le_iff`).
-/

namespace Roots.Client

open Prog RouterM

section

variable [Crypto]

/-- What a call of `pump` comes to, with the number of its device reads. -/
structure Pumped where
  reads : Nat
  result : Except Exit Nat
  world : World

/-- One read that goes before the others. -/
def Pumped.readBefore (p : Pumped) : Pumped := { p with reads := p.reads + 1 }

namespace Device

/-- The loop of `pump` with `handled` packets gone to the mesh. The reads of the device give the
packets it offers, and then nothing. -/
def pumpLoop (d : Device) (via : Option LinkId) : List Bytes → Nat → World → Pumped
  | [], handled, w => ⟨if handled < 64 then 1 else 0, .ok handled, w⟩
  | packet :: offers, handled, w =>
      if handled < 64 then
        if packet = [] then ⟨1, .ok handled, w⟩
        else if d.wants packet = false then (d.pumpLoop via offers handled w).readBefore
        else
          match destination packet with
          | none => (d.pumpLoop via offers handled w).readBefore
          | some dst =>
              match via with
              | none => ⟨1, .ok handled, w⟩
              | some id =>
                  match sendOrResolve id dst packet w with
                  | (.error e, w') => ⟨1, .error e, w'⟩
                  | (.ok _, w') => (d.pumpLoop via offers (handled + 1) w').readBefore
      else ⟨0, .ok handled, w⟩

/-- `Device::pump`. -/
def pumpOffers (d : Device) (via : Option LinkId) (offers : List Bytes) (w : World) : Pumped :=
  d.pumpLoop via offers 0 w

/-- The packets for the mesh go out one after the other. -/
def passOn (d : Device) (id : LinkId) (packets : List Bytes) : RouterM Unit :=
  forEach (packets.filter d.wants) fun packet =>
    match destination packet with
    | none => pure ()
    | some dst => sendOrResolve id dst packet

omit [Crypto] in
theorem destination_of_wants {d : Device} {packet : Bytes} (h : d.wants packet = true) :
    ∃ dst, destination packet = some dst := by
  unfold wants at h
  cases hdst : destination packet with
  | none => rw [hdst] at h; cases h
  | some dst => exact ⟨dst, rfl⟩

section

variable {d : Device} {packet : Bytes} {packets : List Bytes}

theorem passOn_of_not_wants {id : LinkId} (h : d.wants packet = false) :
    d.passOn id (packet :: packets) = d.passOn id packets := by
  rw [passOn, List.filter_cons_of_neg (by simp [h])]
  rfl

theorem passOn_of_wants {id : LinkId} {dst : Address} (h : d.wants packet = true)
    (hdst : destination packet = some dst) :
    d.passOn id (packet :: packets) =
      sendOrResolve id dst packet >>= fun _ => d.passOn id packets := by
  rw [passOn, List.filter_cons_of_pos h, forEach]
  simp only [hdst]
  rfl

end

/-- A call comes to its end within `n` reads: the device has nothing more, gives an empty read, or
gives only packets for the mesh, up to the bound; or there is no link for one of these; or one
cannot be sent. -/
def Stops (d : Device) (via : Option LinkId) (n handled : Nat) (offers : List Bytes) (w : World) :
    Prop :=
  offers.length < n ∨ [] ∈ offers.take n ∨
    (handled + n = 64 ∧ ∀ packet ∈ offers.take n, d.wants packet = true) ∨
    (via = none ∧ ∃ packet ∈ offers.take n, d.wants packet = true) ∨
    ∃ id, via = some id ∧ ∃ e, (d.passOn id (offers.take n) w).1 = .error e

variable {d : Device} {via : Option LinkId}

theorem pumpLoop_reads_le_zero (offers : List Bytes) (handled : Nat) (w : World) :
    (d.pumpLoop via offers handled w).reads ≤ 0 ↔ 64 ≤ handled := by
  cases offers with
  | nil =>
    rw [pumpLoop]
    split <;> simp <;> omega
  | cons packet offers =>
    rw [pumpLoop]
    split
    · rename_i hlt
      -- Every way through a turn of the loop reads once.
      have hpos : ∀ p : Pumped, ¬ p.readBefore.reads ≤ 0 := fun p => by simp [Pumped.readBefore]
      repeat' split
      all_goals simp_all [Pumped.readBefore]
    · simp
      omega

theorem stops_zero {handled : Nat} {offers : List Bytes} {w : World} :
    d.Stops via 0 handled offers w ↔ handled = 64 := by
  simp [Stops, passOn, forEach]

theorem pumpLoop_reads_le_iff (offers : List Bytes) : ∀ (n handled : Nat) (w : World),
    handled + n ≤ 64 →
      ((d.pumpLoop via offers handled w).reads ≤ n ↔ d.Stops via n handled offers w) := by
  induction offers with
  | nil =>
    intro n handled w hn
    cases n with
    | zero =>
      rw [pumpLoop_reads_le_zero, stops_zero]
      omega
    | succ n =>
      have hlt : handled < 64 := by omega
      simp [pumpLoop, Stops, hlt]
  | cons packet offers ih =>
    intro n handled w hn
    cases n with
    | zero =>
      rw [pumpLoop_reads_le_zero, stops_zero]
      omega
    | succ n =>
      have hlt : handled < 64 := by omega
      rw [pumpLoop, if_pos hlt]
      by_cases hempty : packet = []
      · simp [Stops, hempty]
      rw [if_neg hempty]
      cases hwants : d.wants packet with
      | false =>
        -- The packet is not counted, so the bound is out of reach now.
        have hne : ¬ handled + n = 64 := by omega
        have hrest := ih n handled w (by omega)
        simp only [if_true, Pumped.readBefore, Nat.add_le_add_iff_right, hrest]
        simp [Stops, hwants, passOn_of_not_wants hwants, Ne.symm hempty, hne]
      | true =>
        obtain ⟨dst, hdst⟩ := destination_of_wants hwants
        simp only [Bool.true_eq_false, if_false, hdst]
        cases via with
        | none => simp [Stops, hwants]
        | some id =>
          obtain ⟨⟨r, w'⟩, hsend⟩ : ∃ x, sendOrResolve id dst packet w = x := ⟨_, rfl⟩
          cases r with
          | error e =>
            have hfails : (d.passOn id (packet :: offers.take n) w).1 = .error e := by
              rw [passOn_of_wants hwants hdst, run_bind_error hsend]
            simp [hsend, Stops, hfails]
          | ok u =>
            have hpass : d.passOn id (packet :: offers.take n) w =
                d.passOn id (offers.take n) w' := by
              rw [passOn_of_wants hwants hdst, run_bind_ok hsend]
            have hcount : handled + (n + 1) = handled + 1 + n := by omega
            have hrest := ih n (handled + 1) w' (by omega)
            simp only [hsend, Pumped.readBefore, Nat.add_le_add_iff_right, hrest]
            simp [Stops, hwants, hpass, Ne.symm hempty, hcount]

/-- **A call reads the device at most 64 times if and only if something ends it within the first 64
packets that are offered**: fewer are offered, a read among them is empty, all of them are for the
mesh, one is and there is no link, or one cannot be sent. -/
theorem pump_reads_le_iff (d : Device) (via : Option LinkId) (offers : List Bytes) (w : World) :
    (d.pumpOffers via offers w).reads ≤ 64 ↔
      offers.length < 64 ∨ [] ∈ offers.take 64 ∨
        (∀ packet ∈ offers.take 64, d.wants packet = true) ∨
        (via = none ∧ ∃ packet ∈ offers.take 64, d.wants packet = true) ∨
        ∃ id, via = some id ∧ ∃ e, (d.passOn id (offers.take 64) w).1 = .error e := by
  rw [pumpOffers, pumpLoop_reads_le_iff offers 64 0 w (by decide), Stops]
  simp only [Nat.zero_add, true_and]

/-! ## What the call does -/

/-- The packets for the mesh with their destinations, before the bound. -/
def routed (d : Device) (packets : List Bytes) : List (Address × Bytes) :=
  (packets.filter d.wants).filterMap fun packet =>
    (destination packet).map fun dst => (dst, packet)

theorem pumpLoop_world (id : LinkId) (offers : List Bytes) (h : [] ∉ offers) :
    ∀ (handled : Nat) (w : World), (d.pumpLoop (some id) offers handled w).world =
      (forEach ((d.routed offers).take (64 - handled)) (fun x => sendOrResolve id x.1 x.2) w).2 := by
  induction offers with
  | nil =>
    intro handled w
    simp [pumpLoop, routed, forEach]
  | cons packet offers ih =>
    intro handled w
    rw [List.mem_cons, not_or] at h
    rw [pumpLoop]
    by_cases hlt : handled < 64
    · rw [if_pos hlt, if_neg (Ne.symm h.1)]
      cases hwants : d.wants packet with
      | false =>
        have hskip : d.routed (packet :: offers) = d.routed offers := by simp [routed, hwants]
        rw [hskip]
        exact ih h.2 handled w
      | true =>
        obtain ⟨dst, hdst⟩ := destination_of_wants hwants
        have hnext : d.routed (packet :: offers) = (dst, packet) :: d.routed offers := by
          simp [routed, hwants, hdst]
        obtain ⟨k, hk⟩ : ∃ k, 64 - handled = k + 1 := ⟨63 - handled, by omega⟩
        have hrest := ih h.2 (handled + 1)
        rw [show 64 - (handled + 1) = k by omega] at hrest
        rw [hnext, hk, List.take_succ_cons, forEach]
        simp only [Bool.true_eq_false, if_false, hdst]
        obtain ⟨⟨r, w'⟩, hsend⟩ : ∃ x, sendOrResolve id dst packet w = x := ⟨_, rfl⟩
        cases r with
        | error e =>
          rw [run_bind_error hsend, hsend]
        | ok u =>
          rw [run_bind_ok hsend, hsend]
          exact hrest w'
    · rw [if_neg hlt, show 64 - handled = 0 by omega]
      rfl

/-- Without empty reads the call does to the router what `Device.pump` does: the packets for the
mesh go out, up to 64 of them. -/
theorem pumpOffers_world (d : Device) (id : LinkId) {offers : List Bytes} (h : [] ∉ offers)
    (w : World) : (d.pumpOffers (some id) offers w).world = (d.pump id offers w).2 :=
  pumpLoop_world id offers h 0 w

end Device

end

/-! ## A device that is read on -/

section

attribute [local instance] Sample.lenient

/-- A call with a hundred packets that are too short to have an address. It reads them all, and
once more. -/
theorem pump_reads_on :
    (Device.pumpOffers ⟨.replicate 16 0, []⟩ (some 0) (List.replicate 100 [0])
      ((World.init (Sample.smallKey 9) (Env.even 1)).run
        [.connect (Sample.smallKey 3) 0 true])).reads = 101 := by
  decide +kernel

end

end Roots.Client
