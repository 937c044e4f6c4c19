import Roots.Crypto.Sample
import Roots.Router.Rumor

/-!
# Roots.Router.Held

The one slot of a rumor and its mark. `hold_for_lookup` puts a packet into the slot and
marks it as an application's; `pathfinder_send` puts a sealed message there and **leaves the
mark as it finds it**. The notify that empties the slot believes the mark. So the mark tells
the truth in every state of a run as long as no sealed message is put into a marked rumor
(`held_fits`), and one send to a key while a packet for its address waits is enough to
break it.
-/

namespace Roots

open Prog RouterM Relation
open Sample (smallKey)

/-- A mark fits a payload: an application's for a packet that was handed to
`send_or_resolve`, and none for a sealed message. -/
def Payload.Fits (p : Payload) (isApp : Bool) : Prop :=
  (isApp = true ↔ ∃ a, p.tag = .addressed a) ∧ (isApp = false ↔ p.tag = .sealed)

theorem Payload.fits_addressed (b : Bytes) (a : Address) : Payload.Fits ⟨b, .addressed a⟩ true :=
  ⟨⟨fun _ => ⟨a, rfl⟩, fun _ => rfl⟩, ⟨nofun, nofun⟩⟩

theorem Payload.fits_sealed (b : Bytes) : Payload.Fits ⟨b, .sealed⟩ false :=
  ⟨⟨nofun, nofun⟩, ⟨fun _ => rfl, fun _ => rfl⟩⟩

section

variable [Crypto]

/-- Every rumor's mark fits what the rumor holds, and so did the marks of what was taken
out. -/
structure World.Unmixed (w : World) : Prop where
  slots : ∀ x r p, w.router.path.rumors.lookup x = some r → r.pending = some p →
    p.Fits r.pendingIsApp
  released : ∀ k p isApp, Event.released k p isApp ∈ w.events → p.Fits isApp

/-- A sealed message was put into a marked rumor. -/
def World.Stashed (w : World) : Prop := ∃ dest, Event.stashed dest true ∈ w.events

theorem World.Unmixed.fits_of_kept {w : World} (h : w.Unmixed) {x : Key} {r : RumorEntry}
    {p : Payload} (hkept : Kept w.router.path.rumors x r p) : p.Fits r.pendingIsApp := by
  obtain ⟨r₀, hlookup, hpending, hmark⟩ := hkept
  rw [← hmark]
  exact h.slots x r₀ p hlookup hpending

/-- Events that release nothing leave what was taken out as it is. -/
theorem World.Unmixed.released_append {w : World} (h : w.Unmixed) {es : List Event}
    (hes : ∀ k p isApp, Event.released k p isApp ∈ es → p.Fits isApp) :
    ∀ k p isApp, Event.released k p isApp ∈ w.events ++ es → p.Fits isApp :=
  fun k p isApp hmem => (List.mem_append.mp hmem).elim (h.released k p isApp) (hes k p isApp)

/-- A step keeps marks true, unless it puts a sealed message into a marked rumor. -/
theorem World.Unmixed.step {S : Scope} {w w' : World} (h : w.Unmixed) (hstep : Step S w w') :
    w'.Unmixed ∨ w'.Stashed := by
  cases hstep with
  | rumors m hm =>
    refine .inl { h with slots := fun x r p hlookup hpending => ?_ }
    exact h.fits_of_kept (hm x r p hlookup hpending)
  | hold a b m _ hm =>
    refine .inl { h with slots := fun x r p hlookup hpending => ?_ }
    rcases hm x r p hlookup hpending with hkept | ⟨-, rfl, hmark⟩
    · exact h.fits_of_kept hkept
    · rw [hmark]
      exact Payload.fits_addressed b a
  | stash dest b onApp m hm =>
    cases onApp with
    | true => exact .inr ⟨dest, List.mem_append.mpr (.inr (List.mem_singleton.mpr rfl))⟩
    | false =>
      refine .inl ⟨fun x r p hlookup hpending => ?_, h.released_append (by simp)⟩
      rcases hm x r p hlookup hpending with hkept | ⟨rfl, hmark⟩
      · exact h.fits_of_kept hkept
      · rw [hmark]
        exact Payload.fits_sealed b
  | release source p isApp hheld =>
    refine .inl ⟨fun x r p' hlookup hpending => ?_, h.released_append fun k p' isApp' hmem => ?_⟩
    · exact h.fits_of_kept (PathState.kept_takeHeld _ _ hlookup hpending)
    · cases List.mem_singleton.mp hmem
      obtain ⟨r, hlookup, hpending, rfl⟩ := PathState.heldFor_eq_some.mp hheld
      exact h.slots _ r p hlookup hpending
  | notes es hes =>
    refine .inl { h with released := h.released_append fun k p isApp hmem => ?_ }
    cases (hes _ hmem).1
  | deliver => exact .inl { h with released := h.released_append (by simp) }
  | _ => exact .inl { h with }

theorem unmixed_of_walk {S : Scope} {w w' : World} (hwalk : ReflTransGen (Step S) w w')
    (h : w.Unmixed ∨ w.Stashed) : w'.Unmixed ∨ w'.Stashed := by
  induction hwalk with
  | refl => exact h
  | tail _ hstep ih =>
    rcases ih with h | ⟨dest, hmem⟩
    · exact h.step hstep
    · exact .inr ⟨dest, hstep.events_subset hmem⟩

theorem unmixed_init (seed : Key) (env : Env) : (World.init seed env).Unmixed where
  slots := by simp [World.init, Router.init, PathState.init]
  released := by simp [World.init]

theorem unmixed_run (seed : Key) (env : Env) (actions : List Action) :
    ((World.init seed env).run actions).Unmixed ∨ ((World.init seed env).run actions).Stashed := by
  induction actions using List.reverseRecOn with
  | nil => exact .inl (unmixed_init seed env)
  | append_singleton actions a ih =>
    rw [World.run_append]
    have hinv := World.inv_run seed env actions
    exact unmixed_of_walk (a.act_walk Scope.free_open hinv (World.permits_free _ _)) ih

/-- **Held payloads leave through the layer they came from**, in every run in which no sealed
message is put into a marked rumor: every mark fits what its rumor holds, what notifies took
out was handed on as what it was, and a notify that comes next gives the payload of an
application to `session_send` and a sealed message to `net_send`. -/
theorem held_fits {seed : Key} {env : Env} {actions : List Action}
    (h : ∀ dest, Event.stashed dest true ∉ ((World.init seed env).run actions).events) :
    (∀ x r p, ((World.init seed env).run actions).router.path.rumors.lookup x = some r →
      r.pending = some p →
      (r.pendingIsApp = true ↔ ∃ a, p.tag = .addressed a) ∧
        (r.pendingIsApp = false ↔ p.tag = .sealed)) ∧
    (∀ k p isApp, Event.released k p isApp ∈ ((World.init seed env).run actions).events →
      (isApp = true ↔ ∃ a, p.tag = .addressed a) ∧ (isApp = false ↔ p.tag = .sealed)) ∧
    ∀ k p isApp,
      ((World.init seed env).run actions).router.path.heldFor k = some (p, isApp) →
      ((∃ a, p.tag = .addressed a) → flush netSend k ((World.init seed env).run actions) =
        sessionSend netSend k p (((World.init seed env).run actions).release k p isApp)) ∧
      (p.tag = .sealed → flush netSend k ((World.init seed env).run actions) =
        netSend k p.bytes (((World.init seed env).run actions).release k p isApp)) := by
  have hunmixed := (unmixed_run seed env actions).resolve_right fun ⟨dest, hmem⟩ => h dest hmem
  refine ⟨hunmixed.slots, hunmixed.released, fun k p isApp hheld => ?_⟩
  obtain ⟨r, hlookup, hpending, rfl⟩ := PathState.heldFor_eq_some.mp hheld
  obtain ⟨happ, hsealed⟩ := hunmixed.slots _ r p hlookup hpending
  rw [flush_of_held hheld]
  constructor
  · intro htag
    rw [if_pos (happ.mpr htag)]
  · intro htag
    rw [if_neg (by simp [hsealed.mpr htag])]

end

/-! ## A run -/

section

attribute [local instance] Sample.lenient

/-- A key, for its address. -/
def owner : Key := ⟨0x8a :: List.replicate 31 0, rfl⟩

/-- A node with one link. -/
def linked : World :=
  (World.init (smallKey 9) (.even 1)).run [.connect (smallKey 3) 0 true]

/-- It has been handed a packet for that address. -/
def waiting : World := linked.act (.sendOrResolve 0 (addrForKey owner) [0x60])

theorem waiting_reachable : waiting.Reachable :=
  World.Reachable.act ⟨_, _, _, rfl⟩ _

theorem xkey_lookup_owner : xkey (lookupKeyForAddr (addrForKey owner)) = xkey owner := by
  decide +kernel

theorem xkey_owner_ne : xkey owner ≠ xkey (smallKey 9) := by decide +kernel

/-- The packet waits in the rumor of the key. -/
theorem waiting_holds : ∃ r, waiting.router.path.rumors.lookup (xkey owner) = some r ∧
    r.pending = some ⟨[0x60], .addressed (addrForKey owner)⟩ ∧ r.pendingIsApp = true := by
  have hfacts : 0 ∈ linked.links.ids ∧ linked.router.path.entries.keys = [] ∧
      linked.router.sess.sessions.keys = [] ∧ linked.router.treePeers = [] ∧
      linked.router.pubkey = smallKey 9 := by decide +kernel
  obtain ⟨hlive, hpaths, hsessions, hleaf, hself⟩ := hfacts
  unfold waiting
  have hheld := sendOrResolve_leaf hlive hpaths hsessions hleaf (a := addrForKey owner)
    (by rw [xkey_lookup_owner, hself]; exact xkey_owner_ne) [0x60]
  rwa [xkey_lookup_owner] at hheld

/-- The mark is true there. -/
theorem held_fits_waiting : ∃ r p, waiting.router.path.rumors.lookup (xkey owner) = some r ∧
    r.pending = some p ∧ (r.pendingIsApp = true ↔ ∃ a, p.tag = .addressed a) := by
  obtain ⟨r, hr, hpending, -⟩ := waiting_holds
  have hevents : ∀ e ∈ waiting.events, !(e matches .stashed _ _) := by decide +kernel
  have hrun : waiting = (World.init (smallKey 9) (.even 1)).run
    [.connect (smallKey 3) 0 true, .sendOrResolve 0 (addrForKey owner) [0x60]] := rfl
  refine ⟨r, _, hr, hpending, ?_⟩
  rw [hrun] at hr hevents
  exact ((held_fits fun dest hmem => by simpa using hevents _ hmem).1 _ r _ hr hpending).1

/-- A request to the key itself puts its init where the packet was, and the rumor stays
marked as an application's. -/
theorem request_mixes_slot :
    (waiting.act (.request owner [1])).Reachable ∧
      ∃ x r p, (waiting.act (.request owner [1])).router.path.rumors.lookup x = some r ∧
        r.pending = some p ∧ p.tag = .sealed ∧ r.pendingIsApp = true := by
  obtain ⟨r, hr, -, hmark⟩ := waiting_holds
  have hfacts : waiting.router.treePeers = [] ∧
      waiting.router.path.workingPath owner = none ∧ owner ∉ waiting.router.sess.sessions ∧
      waiting.router.pubkey = smallKey 9 ∧ (edToCurvePub owner).isSome := by decide +kernel
  obtain ⟨hleaf, hpath, hsession, hself, hpoint⟩ := hfacts
  have hfar : xkey owner ≠ xkey waiting.router.pubkey := by
    rw [hself]
    exact xkey_owner_ne
  obtain ⟨r', b, hr', hpending, hmark'⟩ := request_leaf hleaf hfar hpath hsession hpoint hr [1]
  exact ⟨waiting_reachable.act _, xkey owner, r', ⟨b, .sealed⟩, hr', hpending, rfl,
    hmark'.trans hmark⟩

end

end Roots
