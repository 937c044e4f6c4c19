import Roots.Router.Held
import Roots.Wire.RoundTrip

/-!
# Roots.Router.Owner

Who a packet for an address is encrypted for. `send_or_resolve` passes a packet on at once
only to a key that owns the address, all of it. A packet that has to wait is kept under
the transformed key of the address, which holds 64 bits of it, and **any** notify from a
key with the same transform releases it. Packets stay with their owners exactly as long as
no other such key is notified from, this node's own among them (`passed_to_owner`).
-/

namespace Roots

open Prog RouterM Wire
open Sample (smallKey)

section

variable [Crypto]

/-- The context in which packets only go to owners of their address. Only this node's own
notifies are answered without a frame. -/
def Scope.owners (self : Key) : Scope where
  flush k := k = self
  passes k p := ∀ a, p.origin = some a → ownsAddr k a = true
  seals _ _ := True
  rewires := True
  grows := True
  adopts := True
  ages := True
  marks := True
  filters := True
  drops := True
  drains := True
  passes_of_none hnone a h := by cases hnone.symm.trans h
  passes_of_owns b howns a h := by
    cases h
    exact howns
  seals_kind _ := trivial

omit [Crypto] in
theorem Scope.owners_open (self : Key) : (Scope.owners self).Open :=
  ⟨trivial, trivial, trivial, trivial, trivial, trivial, trivial, trivial, trivial, trivial, trivial,
    trivial⟩

/-- What an action must not do: release a packet that waits for another owner, or hold a
packet that this node would release to itself without owning the address. -/
def World.RespectsOwner (w : World) : Action → Prop
  | .frame _ .pathNotify payload =>
      ∀ n, PathNotify.decodeExact payload = .ok n → w.Accepts n →
        ∀ p a, w.router.path.heldFor n.source = some (p, true) → p.origin = some a →
          ownsAddr n.source a = true
  | .sendOrResolve _ a _ =>
      xkey w.router.pubkey = xkey (lookupKeyForAddr a) → ownsAddr w.router.pubkey a = true
  | _ => True

theorem World.RespectsOwner.permits {w : World} {a : Action} (h : w.RespectsOwner a) :
    w.Permits (.owners w.router.pubkey) False a := by
  cases a with
  | frame conn ftype payload =>
    refine ⟨fun _ _ _ _ => trivial, ?_, False.elim⟩
    rintro rfl n hn haccepts p hp a ha
    exact h n hn haccepts p a hp ha
  | sendOrResolve via dest payload =>
    rintro k rfl hx a ha
    cases ha
    exact h hx
  | sendOutbox => exact ⟨False.elim, fun _ _ => trivial⟩
  | request | setNodeinfo => exact False.elim
  | _ => trivial

/-- A notify respects the owner of the one packet it releases. -/
theorem World.RespectsOwner.of_held {w : World} {conn : LinkId} {payload : Bytes} {n : PathNotify}
    (hdecode : PathNotify.decodeExact payload = .ok n) {p : Payload}
    (hheld : w.router.path.heldFor n.source = some (p, true))
    (howns : ∀ a, p.origin = some a → ownsAddr n.source a = true) :
    w.RespectsOwner (.frame conn .pathNotify payload) := by
  intro n' hn' _ p' a hp' ha
  cases hdecode.symm.trans hn'
  cases hheld.symm.trans hp'
  exact howns a ha

/-- **A packet is only ever passed to a session of an owner of its address**, in every run
whose actions respect the owners. -/
theorem passed_to_owner {seed : Key} {env : Env} {actions : List Action}
    (h : (World.init seed env).Along World.RespectsOwner actions) {k : Key} {p : Payload}
    {a : Address} (hpassed : .passed k p ∈ ((World.init seed env).run actions).events)
    (hsubmitted : p.origin = some a) :
    addrForKey k = a ∨ (Address.isSubnet a = true ∧ subnetForKey k = Address.subnet a) := by
  have hinit : Inv (.owners (Crypto.verifyingKey seed)) (World.init seed env) := .init rfl env
  have hinv := hinit.run (Scope.owners_open _) (P := World.RespectsOwner) (fun hw hP => ?_) h
  · have howns := hinv.events _ hpassed a hsubmitted
    simpa [ownsAddr] using howns
  · have hself : _ = Crypto.verifyingKey seed := hw.own
    rw [← hself]
    exact hP.permits

end

/-! ## Runs -/

section

attribute [local instance] Sample.lenient

/-- A key that agrees with `owner` in the bits the transform keeps, and not in its address. -/
def lookalike : Key := ⟨0x8a :: List.replicate 9 0 ++ 1 :: List.replicate 21 0, rfl⟩

theorem xkey_lookalike : xkey lookalike = xkey owner := by decide +kernel

/-- A notify for the node with key 9 from a source that is one hop below its root. -/
def notifyFrom (source : Key) : PathNotify where
  path := []
  watermark := 0
  source := source
  dest := smallKey 9
  info := NotifyInfo.signed source 1000 [1]

theorem decode_notifyFrom (source : Key) :
    PathNotify.decodeExact (notifyFrom source).encode = .ok (notifyFrom source) :=
  PathNotify.decodeExact_encode _ .nil
    ⟨by simp [notifyFrom, NotifyInfo.signed], by simp [notifyFrom, NotifyInfo.signed]⟩

/-- A notify from a key with the transform of `owner` is taken in by the waiting node, which
has a packet for it. -/
theorem waiting_accepts {source : Key} (hx : xkey source = xkey owner)
    (hpoint : source ≠ Sample.notAPoint) :
    0 ∈ waiting.links.ids ∧ waiting.Accepts (notifyFrom source) ∧
      waiting.router.path.heldFor source = some (⟨[0x60], .addressed (addrForKey owner)⟩, true) := by
  have hfacts : 0 ∈ waiting.links.ids ∧ waiting.router.path.entries.keys = [] ∧
      waiting.router.pubkey = smallKey 9 ∧
      (waiting.router.tree.greedyNext waiting.links waiting.router.pubkey [] 0).1 = none := by
    decide +kernel
  obtain ⟨hlive, hentries, hself, harrived⟩ := hfacts
  obtain ⟨r, hr, hpending, hmark⟩ := waiting_holds
  rw [← hx] at hr
  have hcheck : (notifyFrom source).check = true := by
    simp only [PathNotify.check, NotifyInfo.check, Bool.and_eq_true]
    exact ⟨decide_eq_true hpoint, decide_eq_true rfl⟩
  have hnone : source ∉ waiting.router.path.entries := by
    rw [AList.mem_keys, hentries]
    exact List.not_mem_nil
  have hnews := PathState.isNews_of_rumor (notifyFrom source) hnone
    (by rw [← AList.lookup_isSome]; exact Option.isSome_of_eq_some hr) hcheck
  exact ⟨hlive, ⟨harrived, hself.symm, hnews⟩,
    PathState.heldFor_eq_some.mpr ⟨r, hr, hpending, hmark⟩⟩

/-- The waiting node sends its packet to whichever key with the transform of `owner` it
hears from first. -/
theorem waiting_passes {source : Key} (hx : xkey source = xkey owner)
    (hpoint : source ≠ Sample.notAPoint) :
    .passed source ⟨[0x60], .addressed (addrForKey owner)⟩ ∈
      (waiting.act (.frame 0 .pathNotify (notifyFrom source).encode)).events := by
  obtain ⟨hlive, haccepts, hheld⟩ := waiting_accepts hx hpoint
  exact passed_of_frame waiting_reachable.inv hlive (decode_notifyFrom source) haccepts hheld

/-- A notify from the lookalike gets it the packet for the owner's address. -/
theorem lookalike_gets_packet :
    (waiting.act (.frame 0 .pathNotify (notifyFrom lookalike).encode)).Reachable ∧
      .passed lookalike ⟨[0x60], .addressed (addrForKey owner)⟩ ∈
        (waiting.act (.frame 0 .pathNotify (notifyFrom lookalike).encode)).events ∧
      addrForKey lookalike ≠ addrForKey owner ∧ Address.isSubnet (addrForKey owner) = false :=
  ⟨waiting_reachable.act _, waiting_passes xkey_lookalike (by decide +kernel), by decide +kernel,
    by decide +kernel⟩

theorem linked_eq : (World.init (smallKey 9) (.even 1)).act
    (.connect (smallKey 3) 0 true) = linked := rfl

theorem waiting_eq : linked.act (.sendOrResolve 0 (addrForKey owner) [0x60]) = waiting := rfl

/-- The run in which the owner answers. -/
def ownerAnswers : List Action :=
  [.connect (smallKey 3) 0 true, .sendOrResolve 0 (addrForKey owner) [0x60],
    .frame 0 .pathNotify (notifyFrom owner).encode]

theorem ownerAnswers_respects :
    (World.init (smallKey 9) (.even 1)).Along World.RespectsOwner ownerAnswers := by
  have hself : linked.router.pubkey = smallKey 9 := by decide +kernel
  have howns : ownsAddr owner (addrForKey owner) = true := by decide +kernel
  have hsend : linked.RespectsOwner (.sendOrResolve 0 (addrForKey owner) [0x60]) := by
    rw [World.RespectsOwner, xkey_lookup_owner, hself]
    exact fun h => absurd h.symm xkey_owner_ne
  have hnotify : waiting.RespectsOwner (.frame 0 .pathNotify (notifyFrom owner).encode) := by
    obtain ⟨r, hr, hpending, hmark⟩ := waiting_holds
    have hheld := PathState.heldFor_eq_some.mpr ⟨r, hr, hpending, hmark⟩
    exact .of_held (decode_notifyFrom owner) hheld fun a ha => by
      cases ha
      exact howns
  exact .cons trivial linked_eq (.cons hsend waiting_eq (.cons hnotify rfl trivial))

theorem run_ownerAnswers : (World.init (smallKey 9) (.even 1)).run ownerAnswers =
    waiting.act (.frame 0 .pathNotify (notifyFrom owner).encode) := by
  rw [ownerAnswers, World.run_cons_of_eq linked_eq, World.run_cons_of_eq waiting_eq,
    World.run_cons, World.run_nil]

/-- A notify from the owner gets it to the owner. -/
theorem passed_to_owner_notified :
    .passed owner ⟨[0x60], .addressed (addrForKey owner)⟩ ∈
      ((World.init (smallKey 9) (.even 1)).run ownerAnswers).events ∧
    (addrForKey owner = addrForKey owner ∨ (Address.isSubnet (addrForKey owner) = true ∧
      subnetForKey owner = Address.subnet (addrForKey owner))) := by
  have hpassed : .passed owner ⟨[0x60], .addressed (addrForKey owner)⟩ ∈
      ((World.init (smallKey 9) (.even 1)).run ownerAnswers).events := by
    rw [run_ownerAnswers]
    exact waiting_passes rfl (by decide +kernel)
  exact ⟨hpassed, passed_to_owner ownerAnswers_respects hpassed rfl⟩

end

end Roots
