import Roots.Client.Node
import Roots.Router.Broken
import Roots.Router.Inbox

/-!
# Roots.Client.Tun

The TUN device of the client (`client/src/tun.rs`) and `pump_tun` of `client/src/node.rs`, which
moves packets both ways between the device and the mesh.

A session carries whole IP datagrams, and what it delivers goes **straight to the device**:
`pump_tun` drops the key of the session and looks at nothing in the packet. So a peer chooses the
source address the kernel sees. What does hold is that every packet the device gets is what the
stored session with a key opened a traffic frame of the run to, each from a frame of its own and in
the order of the frames (`Bridge.moved_from_sessions`).
-/

namespace Roots.Client

section

open Prog RouterM

/-! ## The device -/

/-- `Device`: the address of the node and the packets that wait for the kernel. -/
structure Device where
  localAddr : Address
  out : List Bytes

namespace Device

/-- `Device::link_local`: `fe80::/10`. -/
def linkLocal (addr : Address) : Bool := addr.head = 0xfe ∧ addr.tail.head &&& 0xc0 = 0x80

/-- `Device::mesh`: `0200::/7`. -/
def mesh (addr : Address) : Bool := addr.head &&& 0xfe = nodePrefix &&& 0xfe

/-- Whether a packet has the fixed header of IPv6. -/
def isIpv6 (packet : Bytes) : Bool := 40 ≤ packet.length ∧ packet.headD 0 >>> 4 = 6

/-- `Device::destination`. -/
def destination (packet : Bytes) : Option Address :=
  if isIpv6 packet then arrayOf 16 ((packet.drop 24).take 16) else none

/-- The source address of a packet. -/
def source (packet : Bytes) : Option Address :=
  if isIpv6 packet then arrayOf 16 ((packet.drop 8).take 16) else none

/-- `Device::wants`. -/
def wants (d : Device) (packet : Bytes) : Bool :=
  match destination packet with
  | none => false
  | some dst =>
      if dst = d.localAddr then false
      else
        let src := (source packet).getD (.replicate 16 0)
        !linkLocal dst && !linkLocal src && mesh dst && mesh src

/-- `Device::deliver`. -/
def deliver (d : Device) (packet : Bytes) : Device := { d with out := d.out ++ [packet] }

/-- What `pump` passes on of what it reads: at most 64 packets, with their destinations. -/
def forMesh (d : Device) (reads : List Bytes) : List (Address × Bytes) :=
  ((reads.filter d.wants).filterMap fun packet =>
    (destination packet).map fun dst => (dst, packet)).take 64

variable [Crypto]

/-- `Device::pump`, with what it reads until the device has nothing more. -/
def pump (d : Device) (via : LinkId) (reads : List Bytes) : RouterM Unit :=
  forEach (d.forMesh reads) fun x => sendOrResolve via x.1 x.2

end Device

/-- A packet whose source address belongs to the key: its address, or one of its subnet. -/
def Genuine (k : Key) (packet : Bytes) : Prop :=
  ∃ src, Device.source packet = some src ∧
    (src = addrForKey k ∨ Address.subnet src = subnetForKey k)

instance (k : Key) (packet : Bytes) : Decidable (Genuine k packet) :=
  match h : Device.source packet with
  | none => .isFalse fun ⟨_, hsrc, _⟩ => by rw [h] at hsrc; cases hsrc
  | some src =>
      decidable_of_iff (src = addrForKey k ∨ Address.subnet src = subnetForKey k)
        ⟨fun howned => ⟨src, h, howned⟩,
          fun ⟨src', hsrc, howned⟩ => by rw [h, Option.some_inj] at hsrc; rwa [hsrc]⟩

/-! ## The node between its device and the mesh -/

variable [Crypto]

/-- The router of a node and its device. `moved` is what went from the inbox to the device, and
`kernel` what the device wrote. -/
structure Bridge where
  world : World
  tun : Option Device
  moved : List (Key × Bytes)
  kernel : List Bytes

/-- One thing the loop does. The inbox has no reader but `pump_tun`. -/
inductive Chore where
  | act (a : Action) (hkept : a ≠ .drainInbox)
  /-- `pump_tun`, with what the kernel has for the device and the write that fails, if one does. -/
  | pump (reads : List Bytes) (failsAt : Option Nat)

namespace Bridge

def init (seed : Key) (env : Env) (localAddr : Option Address) : Bridge where
  world := .init seed env
  tun := localAddr.map fun addr => ⟨addr, []⟩
  moved := []
  kernel := []

/-- The first step of `pump_tun`: the inbox is drained into the device. -/
def fromInbox (b : Bridge) : Bridge :=
  match b.tun with
  | none => b
  | some d =>
      { b with
        world := b.world.act .drainInbox
        tun := some (b.world.router.inbox.foldl (fun d x => d.deliver x.2) d)
        moved := b.moved ++ b.world.router.inbox }

/-- The second: the packets of the kernel go to the mesh, by way of the first link. -/
def toMesh (b : Bridge) (reads : List Bytes) : Bridge :=
  match b.tun, b.world.links.ids.head? with
  | some d, some via =>
      match d.pump via reads b.world with
      | (.ok _, world) => { b with world }
      | (.error e, world) => { b with world, tun := if e.isLink then some d else none }
  | _, _ => b

/-- The third: `Device::flush`. A write that fails drops the device. -/
def toKernel (b : Bridge) (failsAt : Option Nat) : Bridge :=
  match b.tun with
  | none => b
  | some d =>
      match failsAt.filter (· < d.out.length) with
      | some i => { b with tun := none, kernel := b.kernel ++ d.out.take i }
      | none => { b with tun := some { d with out := [] }, kernel := b.kernel ++ d.out }

/-- `Node::pump_tun`. -/
def pumpTun (b : Bridge) (reads : List Bytes) (failsAt : Option Nat) : Bridge :=
  if b.tun.isNone then b else ((b.fromInbox).toMesh reads).toKernel failsAt

def take (b : Bridge) : Chore → Bridge
  | .act a _ => { b with world := b.world.act a }
  | .pump reads failsAt => b.pumpTun reads failsAt

def run (b : Bridge) (chores : List Chore) : Bridge := chores.foldl take b

/-! ## What reaches the device -/

/-- What holds between the router and its device. -/
structure Carries (b : Bridge) : Prop where
  inv : Inv .free b.world
  moved : b.moved ++ b.world.router.inbox = b.world.deliveries
  /-- The device has what was moved and not written yet. -/
  out : ∀ d, b.tun = some d → b.kernel ++ d.out = b.moved.map Prod.snd
  kernel : b.kernel <+: b.moved.map Prod.snd

variable {b : Bridge}

/-- A program that may hand payloads on, and takes none out of the inbox. -/
theorem Carries.mesh (h : Carries b) {world : World} (hinv : Inv .free world)
    {more : List (Key × Bytes)} (hands : Hands more b.world world) {tun : Option Device}
    (htun : ∀ d, tun = some d → b.tun = some d) : Carries { b with world, tun } := by
  refine ⟨hinv, ?_, fun d hd => h.out d (htun d hd), h.kernel⟩
  show b.moved ++ world.router.inbox = world.deliveries
  rw [hands.inbox, hands.deliveries, ← List.append_assoc, h.moved]

theorem Carries.act (h : Carries b) {a : Action} (hkept : a ≠ .drainInbox) :
    Carries { b with world := b.world.act a } := by
  obtain ⟨x, hands, -⟩ := World.act_hands h.inv hkept
  exact h.mesh (inv_act h.inv a) hands fun _ hd => hd

omit [Crypto] in
theorem foldl_deliver (d : Device) (inbox : List (Key × Bytes)) :
    (inbox.foldl (fun d x => d.deliver x.2) d).out = d.out ++ inbox.map Prod.snd := by
  induction inbox generalizing d with
  | nil => exact (List.append_nil _).symm
  | cons x inbox ih =>
    rw [List.foldl_cons, ih, Device.deliver, List.append_assoc]
    rfl

theorem Carries.fromInbox (h : Carries b) : Carries b.fromInbox := by
  unfold Bridge.fromInbox
  split
  · exact h
  · rename_i d hd
    refine ⟨inv_act h.inv .drainInbox, ?_, ?_, ?_⟩
    · exact (List.append_nil _).trans h.moved
    · intro d' hd'
      cases hd'
      show b.kernel ++ (b.world.router.inbox.foldl (fun d x => d.deliver x.2) d).out =
        (b.moved ++ b.world.router.inbox).map Prod.snd
      rw [foldl_deliver, ← List.append_assoc, h.out d hd, List.map_append]
    · refine h.kernel.trans ?_
      rw [List.map_append]
      exact List.prefix_append _ _

theorem pump_obeys {S : Scope} (hpasses : ∀ k p, S.passes k p) (d : Device) (via : LinkId)
    (reads : List Bytes) : (rules S False).Allows (d.pump via reads) :=
  .forEach fun _ _ _ => sendOrResolve_obeys False.elim via fun k _ _ => hpasses k _

/-- The device hands nothing on to the application. -/
theorem pump_silent {w : World} (hw : Inv .free w) (d : Device) (via : LinkId)
    (reads : List Bytes) : Hands [] w (d.pump via reads w).2 :=
  .of_obeys hw (pump_obeys (fun _ _ => trivial) d via reads w)

theorem pump_inv {w : World} (hw : Inv .free w) (d : Device) (via : LinkId)
    (reads : List Bytes) : Inv .free (d.pump via reads w).2 :=
  (pump_obeys (S := .free) (fun _ _ => trivial) d via reads w).inv hw

theorem toMesh_world (b : Bridge) (reads : List Bytes) :
    (b.toMesh reads).world = b.world ∨
      ∃ d via, b.tun = some d ∧ (b.toMesh reads).world = (d.pump via reads b.world).2 := by
  unfold Bridge.toMesh
  split
  · rename_i d via hd _
    refine .inr ⟨d, via, hd, ?_⟩
    split
    · rename_i world hrun
      rw [hrun]
    · rename_i e world hrun
      rw [hrun]
  · exact .inl rfl

theorem Carries.toMesh (h : Carries b) (reads : List Bytes) : Carries (b.toMesh reads) := by
  unfold Bridge.toMesh
  split
  · rename_i d via hd _
    have hmesh : ∀ tun : Option Device, (∀ d', tun = some d' → d' = d) →
        Carries { b with world := (d.pump via reads b.world).2, tun } := by
      intro tun htun
      refine h.mesh (pump_inv h.inv d via reads) (pump_silent h.inv d via reads) fun d' hd' => ?_
      rw [hd, htun d' hd']
    split
    · rename_i world hrun
      have hsame := hmesh b.tun fun d' hd' => by rw [hd, Option.some_inj] at hd'; exact hd'.symm
      rwa [hrun] at hsame
    · rename_i e world hrun
      have hrest := hmesh (if e.isLink then some d else none) fun d' hd' => by
        split at hd' <;> cases hd'
        rfl
      rwa [hrun] at hrest
  · exact h

theorem Carries.toKernel (h : Carries b) (failsAt : Option Nat) :
    Carries (b.toKernel failsAt) := by
  unfold Bridge.toKernel
  split
  · exact h
  · rename_i d hd
    have hout := h.out d hd
    split
    · rename_i i _
      refine ⟨h.inv, h.moved, fun _ hd' => by (cases hd'), ?_⟩
      show b.kernel ++ d.out.take i <+: b.moved.map Prod.snd
      rw [← hout]
      exact (List.prefix_append_right_inj _).mpr (List.take_prefix _ _)
    · refine ⟨h.inv, h.moved, fun d' hd' => ?_, hout ▸ List.prefix_rfl⟩
      cases hd'
      exact (List.append_nil _).trans hout

theorem toKernel_world (b : Bridge) (failsAt : Option Nat) :
    (b.toKernel failsAt).world = b.world := by
  unfold Bridge.toKernel
  split
  · rfl
  · split <;> rfl

/-- The step lemma. -/
theorem Carries.take (h : Carries b) (chore : Chore) : Carries (b.take chore) := by
  cases chore with
  | act a hkept => exact h.act hkept
  | pump reads failsAt =>
    show Carries (if b.tun.isNone then b else _)
    split
    · exact h
    · exact (h.fromInbox.toMesh reads).toKernel failsAt

/-- The run lemma. -/
theorem Carries.run (h : Carries b) (chores : List Chore) : Carries (b.run chores) := by
  induction chores generalizing b with
  | nil => exact h
  | cons chore chores ih => exact ih (h.take chore)

theorem Carries.init (seed : Key) (env : Env) (localAddr : Option Address) :
    Carries (Bridge.init seed env localAddr) where
  inv := Inv.init trivial env
  moved := rfl
  out d hd := by
    cases localAddr with
    | none => cases hd
    | some addr =>
      cases hd
      rfl
  kernel := List.nil_prefix

/-! ## The frames it comes from -/

/-- The `i`th chore is a frame of traffic that the session with `x.1` opened to `x.2`. -/
def ReceivedAt (b : Bridge) (chores : List Chore) (i : Nat) (x : Key × Bytes) : Prop :=
  ∃ a hkept, chores[i]? = some (.act a hkept) ∧ (b.run (chores.take i)).world.Receives a x

variable {chores : List Chore} {i : Nat} {x : Key × Bytes}

theorem ReceivedAt.lt (h : b.ReceivedAt chores i x) : i < chores.length := by
  obtain ⟨a, hkept, hget, -⟩ := h
  exact (List.getElem?_eq_some_iff.mp hget).1

theorem ReceivedAt.concat (h : b.ReceivedAt chores i x) (chore : Chore) :
    b.ReceivedAt (chores ++ [chore]) i x := by
  have hlt := h.lt
  obtain ⟨a, hkept, hget, hreceives⟩ := h
  refine ⟨a, hkept, ?_, ?_⟩
  · rw [List.getElem?_append_left hlt, hget]
  · rw [List.take_append_of_le_length hlt.le]
    exact hreceives

theorem received_lt {at_ : List Nat} {xs : List (Key × Bytes)}
    (h : List.Forall₂ (b.ReceivedAt chores) at_ xs) : ∀ i ∈ at_, i < chores.length := by
  induction h with
  | nil => simp
  | cons hi _ ih => simpa [hi.lt] using ih

/-- What a pump leaves of the record of the deliveries: all of it. -/
theorem pumpTun_deliveries (h : Carries b) (reads : List Bytes) (failsAt : Option Nat) :
    (b.pumpTun reads failsAt).world.deliveries = b.world.deliveries := by
  unfold Bridge.pumpTun
  split
  · rfl
  · have hinbox : b.fromInbox.world.deliveries = b.world.deliveries := by
      unfold Bridge.fromInbox
      split <;> rfl
    rw [toKernel_world, ← hinbox]
    rcases b.fromInbox.toMesh_world reads with hsame | ⟨d, via, -, hpump⟩
    · rw [hsame]
    · rw [hpump, (pump_silent h.fromInbox.inv d via reads).deliveries, List.append_nil]

/-- One more chore adds at most one delivery, and it comes from that chore. -/
theorem take_deliveries (h : Carries b) (chore : Chore) :
    ∃ x : Option (Key × Bytes), (b.take chore).world.deliveries = b.world.deliveries ++ x.toList ∧
      ∀ y ∈ x, ∃ a hkept, chore = .act a hkept ∧ b.world.Receives a y := by
  cases chore with
  | pump reads failsAt =>
    exact ⟨none, (pumpTun_deliveries h reads failsAt).trans (List.append_nil _).symm, by simp⟩
  | act a hkept =>
    obtain ⟨x, hands, hx⟩ := World.act_hands h.inv hkept
    exact ⟨x, hands.deliveries, fun y hy => ⟨a, hkept, rfl, hx y hy⟩⟩

/-- Every delivery comes from a frame of the run, each from another one and in their order. -/
theorem deliveries_received (h : Carries b) (hstart : b.world.deliveries = [])
    (chores : List Chore) :
    ∃ at_ : List Nat, at_.Pairwise (· < ·) ∧
      List.Forall₂ (b.ReceivedAt chores) at_ (b.run chores).world.deliveries := by
  induction chores using List.reverseRecOn with
  | nil =>
    refine ⟨[], .nil, ?_⟩
    show List.Forall₂ _ [] b.world.deliveries
    rw [hstart]
    exact .nil
  | append_singleton chores chore ih =>
    obtain ⟨at_, hsorted, hfrom⟩ := ih
    have hfrom' := hfrom.imp fun i x (hi : b.ReceivedAt chores i x) => hi.concat chore
    have hbound := received_lt hfrom
    have hrun : b.run (chores ++ [chore]) = (b.run chores).take chore := by
      rw [Bridge.run, List.foldl_append]
      rfl
    obtain ⟨x, hdeliveries, hx⟩ := take_deliveries (h.run chores) chore
    rw [hrun, hdeliveries]
    cases x with
    | none =>
      rw [Option.toList_none, List.append_nil]
      exact ⟨at_, hsorted, hfrom'⟩
    | some y =>
      obtain ⟨a, hkept, rfl, hreceives⟩ := hx y rfl
      refine ⟨at_ ++ [chores.length], ?_, List.rel_append hfrom' (.cons ⟨a, hkept, ?_, ?_⟩ .nil)⟩
      · refine List.pairwise_append.mpr ⟨hsorted, List.pairwise_singleton _ _, ?_⟩
        intro i hi j hj
        rw [List.mem_singleton.mp hj]
        exact hbound i hi
      · rw [List.getElem?_append_right le_rfl, Nat.sub_self]
        rfl
      · rw [List.take_left]
        exact hreceives

/-- **What goes into the device is what the sessions opened.** The packets that were moved from the
inbox are the first of the delivered payloads, each once and in order. Each payload was opened by
the stored session with its key, from a traffic frame for this node from that key: another frame
for each, in the order in which they arrived. The kernel gets the packets as they were moved. -/
theorem moved_from_sessions (seed : Key) (env : Env) (localAddr : Option Address)
    (chores : List Chore) :
    (∃ at_ : List Nat, at_.Pairwise (· < ·) ∧
        List.Forall₂ ((Bridge.init seed env localAddr).ReceivedAt chores) at_
          (((Bridge.init seed env localAddr).run chores).moved ++
            ((Bridge.init seed env localAddr).run chores).world.router.inbox)) ∧
      ((Bridge.init seed env localAddr).run chores).kernel <+:
        ((Bridge.init seed env localAddr).run chores).moved.map Prod.snd := by
  have h := (Carries.init seed env localAddr).run chores
  rw [h.moved]
  exact ⟨deliveries_received (Carries.init seed env localAddr) rfl chores, h.kernel⟩

end Bridge

end

/-! ## A packet with another node's address -/

section

attribute [local instance] Sample.lenient

/-- Traffic from the node with the high key 0xa0 to the one with the high key 0x90. -/
def fromPeer (payload : Bytes) : Traffic where
  path := []
  «from» := []
  source := highKey 0xa0
  dest := highKey 0x90
  watermark := 0
  payload := payload

/-- The `n`th key pair of the peer. -/
def peerKeys (n : UInt8) : BoxKeys := freshBox (highKey n)

/-- The peer opens a session. -/
def peerInit : Traffic :=
  fromPeer <|
    (SessionInit.encryptMsg
      { current := (peerKeys 0xc1).pub, next := (peerKeys 0xc2).pub, keySeq := 0, seq := 1000 }
      sessionTypeInit (highKey 0xa0) (highKey 0x90) (highKey 0xc3)).getD []

def greeted : List Action := [.connect (highKey 0xa0) 0 true, .frame 0 .traffic peerInit.bytes]

/-- The session of the peer, after the ack. -/
def peerSession : Option Session :=
  (((World.init (highKey 0x90) (.even 1)).run greeted).router.sess.sessions.lookup
    (highKey 0xa0)).map fun x =>
      let ack := x.1.makeInit 1000
      ((Session.forInit ack (peerKeys 0xc4) (peerKeys 0xc5) (peerKeys 0xc6)).adoptBuffered
        (peerKeys 0xc1) (peerKeys 0xc2)).handleAck ack (peerKeys 0xc7)

/-- An IPv6 header that says the packet is from the node with the high key 0xb0. -/
def spoofed : Bytes :=
  0x60 :: List.replicate 7 0 ++ (addrForKey (highKey 0xb0)).toList ++
    (addrForKey (highKey 0x90)).toList

def spoofing : Traffic :=
  fromPeer <|
    (peerSession.map fun s => (s.encrypt (packetTypeTraffic :: spoofed) (peerKeys 0xc8)).2).getD []

/-- The node with the high key 0x90 and its device, after the peer has opened a session and sent
the packet. -/
def deceived : Bridge :=
  (Bridge.init (highKey 0x90) (.even 1) (some (addrForKey (highKey 0x90)))).run
    [.act (.connect (highKey 0xa0) 0 true) (by simp),
      .act (.frame 0 .traffic peerInit.bytes) (by simp),
      .act (.frame 0 .traffic spoofing.bytes) (by simp), .pump [] none]

/-- The session with one key delivers a packet with the address of another, and the kernel gets
it. -/
theorem source_forged : (highKey 0xa0, spoofed) ∈ deceived.moved ∧ spoofed ∈ deceived.kernel ∧
    Device.source spoofed = some (addrForKey (highKey 0xb0)) ∧
    ¬ Genuine (highKey 0xa0) spoofed := by
  decide +kernel

end

end Roots.Client
