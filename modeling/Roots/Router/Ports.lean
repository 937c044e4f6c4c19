import Roots.Crypto.Sample
import Roots.Lib.Counter
import Roots.Router.Books

/-!
# Roots.Router.Ports

The ports of children. `register` gives a key its port the first time it meets the key, and
nothing ever takes it back: `handle_request` signs the same one on every link and after every
reconnect. So **two answers have the same port if and only if they are for the same key**, and
no port is zero (`ports_unambiguous`).

`next_port` is a `u64` that starts at one. It is enough for one key less than it has values; the
next key is given port zero (`port_zero_signed`).
-/

namespace Roots

open Prog RouterM

section

variable [Crypto] {w w' : World}

/-! ## Answers -/

/-- The answer `handle_request` signs. -/
def Router.answer (r : Router) (peer : Key) (req : SigReq) : SigRes :=
  .seal req ((r.tree.portOf peer).getD 0) peer r.key r.pubkey

/-- What the router signs in answer to a request that arrives on a link, and for whom. -/
def World.signs (w : World) : Action → Option (Key × SigRes)
  | .frame conn .sigReq payload =>
      match w.links.peerOf conn, SigReq.decode payload >>= Wire.exact with
      | some peer, .ok req => some (peer, w.router.answer peer req)
      | _, _ => none
  | _ => none

/-- The answers of a run. -/
def World.signed : World → List Action → List (Key × SigRes)
  | _, [] => []
  | w, a :: actions => (w.signs a).toList ++ (w.act a).signed actions

theorem signed_append (w : World) (as bs : List Action) :
    w.signed (as ++ bs) = w.signed as ++ (w.run as).signed bs := by
  induction as generalizing w with
  | nil => rfl
  | cons a as ih =>
    rw [List.cons_append, World.signed, World.signed, ih, List.append_assoc, World.run_cons]

theorem signs_eq_some {a : Action} {peer : Key} {res : SigRes} (h : w.signs a = some (peer, res)) :
    ∃ conn payload req, a = .frame conn .sigReq payload ∧ w.links.peerOf conn = some peer ∧
      (SigReq.decode payload >>= Wire.exact) = .ok req ∧ res = w.router.answer peer req := by
  unfold World.signs at h
  split at h
  · rename_i conn payload
    split at h
    · rename_i peer' req hpeer hreq
      obtain ⟨rfl, rfl⟩ := Prod.mk.inj (Option.some.inj h)
      exact ⟨conn, payload, req, rfl, hpeer, hreq, rfl⟩
    · cases h
  · cases h

/-- It is what goes back down the link that asked. -/
theorem dispatchFrame_signs {conn : LinkId} {payload : Bytes} {peer : Key} {res : SigRes}
    (h : w.signs (.frame conn .sigReq payload) = some (peer, res)) :
    dispatchFrame conn .sigReq payload w = (do
      write conn .sigRes res.encode
      keepaliveIfIdle conn : RouterM Unit) w := by
  obtain ⟨conn', payload', req, heq, hpeer, hreq, rfl⟩ := signs_eq_some h
  cases heq
  have hhandle : handleFrame conn peer payload .sigReq w =
      write conn .sigRes (w.router.answer peer req).encode w := by
    rw [handleFrame, hreq]
    rfl
  rw [dispatchFrame, links, Prog.gets_bind, hpeer]
  dsimp only
  rw [run_bind, run_bind, hhandle]
  rfl

/-! ## Ports that are kept -/

theorem Allots.kept {k₀ : Key} (h : Allots k₀ w w') {k : Key} {port : UInt64}
    (hport : w.router.tree.portOf k = some port) : w'.router.tree.portOf k = some port := by
  by_cases hk : k = k₀
  · rw [hk, h.own, ← hk, hport, Option.getD_some]
  · rw [h.others k hk, hport]

theorem port_kept_act (hw : Inv .free w) (a : Action) {k : Key} {port : UInt64}
    (hport : w.router.tree.portOf k = some port) : (w.act a).router.tree.portOf k = some port := by
  by_cases ha : ∃ peer prio kept, a = .connect peer prio kept
  · obtain ⟨peer, prio, kept, rfl⟩ := ha
    exact (connect_allots hw peer prio kept).kept hport
  · rw [(samePorts_act hw a fun peer prio kept heq => ha ⟨peer, prio, kept, heq⟩).ports k, hport]

theorem port_kept_run (hw : Inv .free w) (actions : List Action) {k : Key} {port : UInt64}
    (hport : w.router.tree.portOf k = some port) :
    (w.run actions).router.tree.portOf k = some port := by
  induction actions generalizing w with
  | nil => exact hport
  | cons a actions ih => exact ih (inv_act hw a) (port_kept_act hw a hport)

/-- An answer has the port its key has at the end of the run. -/
theorem port_of_mem_signed (hw : Inv .free w) {actions : List Action} {x : Key × SigRes}
    (hx : x ∈ w.signed actions) : (w.run actions).router.tree.portOf x.1 = some x.2.port := by
  induction actions generalizing w with
  | nil => cases hx
  | cons a actions ih =>
    rcases List.mem_append.mp hx with hx | hx
    · obtain ⟨conn, payload, req, -, hpeer, -, hres⟩ := signs_eq_some (Option.mem_toList.mp hx)
      -- The link is in the set, so its peer was registered.
      have hmem : x.1 ∈ w.router.tree.peers := hw.peer_mem hpeer
      obtain ⟨port, hport⟩ := Option.isSome_iff_exists.mp (TreeState.portOf_isSome.mpr hmem)
      have hown : x.2.port = port := by
        rw [hres, Router.answer, hport]
        rfl
      rw [hown]
      exact port_kept_run (inv_act hw a) actions (port_kept_act hw a hport)
    · exact ih (inv_act hw a) hx

/-! ## Ports that are given out -/

/-- The number of keys that have a port. -/
def TreeState.population (t : TreeState) : Nat := t.peers.keys.length

/-- The ports are the values of the counter so far, one for each key. -/
structure TreeState.Numbered (t : TreeState) : Prop where
  next : t.nextPort = 1 + .ofNat t.population
  given : ∀ k port, t.portOf k = some port → port ∈ Counter.given 1 t.population
  apart : t.population ≤ 2 ^ 64 → ∀ k k' port, t.portOf k = some port → t.portOf k' = some port →
    k = k'

omit [Crypto] in
theorem TreeState.population_congr {t t' : TreeState} (h : ∀ k, t'.portOf k = t.portOf k) :
    t'.population = t.population := by
  refine List.Perm.length_eq ?_
  refine (List.perm_ext_iff_of_nodup t'.peers.keys_nodup t.peers.keys_nodup).mpr fun k => ?_
  rw [← AList.mem_keys, ← AList.mem_keys, ← portOf_isSome, ← portOf_isSome, h]

omit [Crypto] in
theorem TreeState.population_insert {t t' : TreeState} {k : Key} (hnew : k ∉ t.peers)
    (hown : (t'.portOf k).isSome) (h : ∀ k', k' ≠ k → t'.portOf k' = t.portOf k') :
    t'.population = t.population + 1 := by
  have hnodup : (k :: t.peers.keys).Nodup :=
    List.nodup_cons.mpr ⟨fun hmem => hnew (AList.mem_keys.mpr hmem), t.peers.keys_nodup⟩
  have hperm : t'.peers.keys.Perm (k :: t.peers.keys) := by
    refine (List.perm_ext_iff_of_nodup t'.peers.keys_nodup hnodup).mpr fun k' => ?_
    rw [List.mem_cons, ← AList.mem_keys, ← AList.mem_keys]
    by_cases hk : k' = k
    · rw [hk, ← portOf_isSome]
      exact iff_of_true hown (.inl rfl)
    · rw [← portOf_isSome, h k' hk, portOf_isSome, or_iff_right hk]
  exact hperm.length_eq

theorem TreeState.Numbered.same (hn : w.router.tree.Numbered) (h : SamePorts w w') :
    w'.router.tree.Numbered where
  next := by rw [h.nextPort, hn.next, population_congr h.ports]
  given k port hport := by
    rw [population_congr h.ports]
    exact hn.given k port (h.ports k ▸ hport)
  apart hle k k' port hk hk' := by
    rw [population_congr h.ports] at hle
    exact hn.apart hle k k' port (h.ports k ▸ hk) (h.ports k' ▸ hk')

/-- A key that is registered again keeps its port; a new one gets one that no other key has. -/
theorem TreeState.Numbered.allots (hn : w.router.tree.Numbered) {k : Key} (h : Allots k w w') :
    w'.router.tree.Numbered := by
  by_cases hk : k ∈ w.router.tree.peers
  · have hsame : SamePorts w w' := by
      refine ⟨fun k' => ?_, by rw [h.nextPort, if_pos hk]⟩
      by_cases hk' : k' = k
      · obtain ⟨port, hport⟩ := Option.isSome_iff_exists.mp (portOf_isSome.mpr hk)
        rw [hk', h.own, hport, Option.getD_some]
      · exact h.others k' hk'
    exact hn.same hsame
  · have hnone : w.router.tree.portOf k = none := by
      rw [← Option.not_isSome_iff_eq_none, portOf_isSome]
      exact hk
    have hown : w'.router.tree.portOf k = some (1 + .ofNat w.router.tree.population) := by
      rw [h.own, hnone, Option.getD_none, hn.next]
    have hsize : w'.router.tree.population = w.router.tree.population + 1 :=
      population_insert hk (by rw [hown]; rfl) h.others
    -- The port that is given out comes after those of the other keys.
    have hlast : ∀ {k' port}, k' ≠ k → w'.router.tree.portOf k' = some port →
        port ∈ Counter.given 1 w.router.tree.population := fun {k' port} hne hport =>
      hn.given k' port ((h.others k' hne) ▸ hport)
    have hfresh : w'.router.tree.population ≤ 2 ^ 64 →
        1 + .ofNat w.router.tree.population ∉ Counter.given 1 w.router.tree.population := by
      intro hle hmem
      rw [hsize] at hle
      have hnodup : (Counter.given 1 (w.router.tree.population + 1)).Nodup :=
        Counter.given_nodup hle
      rw [Counter.given_succ] at hnodup
      exact (List.nodup_append.mp hnodup).2.2 _ hmem _ (List.mem_singleton_self _) rfl
    refine ⟨?_, fun k' port hport => ?_, fun hle k₁ k₂ port h₁ h₂ => ?_⟩
    · rw [h.nextPort, if_neg hk, hn.next, hsize, Counter.add_ofNat_succ]
    · rw [hsize, Counter.given_succ]
      by_cases hk' : k' = k
      · rw [hk', hown] at hport
        cases hport
        exact List.mem_append_right _ (List.mem_singleton_self _)
      · exact List.mem_append_left _ (hlast hk' hport)
    · by_cases hk₁ : k₁ = k
      · by_cases hk₂ : k₂ = k
        · rw [hk₁, hk₂]
        · rw [hk₁, hown] at h₁
          cases h₁
          exact absurd (hlast hk₂ h₂) (hfresh hle)
      · by_cases hk₂ : k₂ = k
        · rw [hk₂, hown] at h₂
          cases h₂
          exact absurd (hlast hk₁ h₁) (hfresh hle)
        · have hle' : w.router.tree.population ≤ 2 ^ 64 := by omega
          exact hn.apart hle' k₁ k₂ port (h.others k₁ hk₁ ▸ h₁) (h.others k₂ hk₂ ▸ h₂)

theorem numbered_act (hw : Inv .free w) (hn : w.router.tree.Numbered) (a : Action) :
    (w.act a).router.tree.Numbered := by
  by_cases ha : ∃ peer prio kept, a = .connect peer prio kept
  · obtain ⟨peer, prio, kept, rfl⟩ := ha
    exact hn.allots (connect_allots hw peer prio kept)
  · exact hn.same (samePorts_act hw a fun peer prio kept heq => ha ⟨peer, prio, kept, heq⟩)

theorem numbered_run (seed : Key) (env : Env) (actions : List Action) :
    ((World.init seed env).run actions).router.tree.Numbered := by
  induction actions using List.reverseRecOn with
  | nil => exact ⟨rfl, nofun, nofun⟩
  | append_singleton actions a ih =>
    rw [World.run_append]
    exact numbered_act (World.inv_run seed env actions) ih a

/-! ## Keys that were registered -/

omit [Crypto] in
/-- The key an action registers. -/
def Action.registers : Action → Option Key
  | .connect peer _ _ => some peer
  | _ => none

omit [Crypto] in
/-- The keys that a run registers, each once. -/
def registered (actions : List Action) : List Key := (actions.filterMap Action.registers).dedup

theorem mem_peers_act (hw : Inv .free w) (a : Action) {k : Key}
    (hk : k ∈ (w.act a).router.tree.peers) :
    k ∈ w.router.tree.peers ∨ a.registers = some k := by
  rw [← TreeState.portOf_isSome] at hk ⊢
  by_cases ha : ∃ peer prio kept, a = .connect peer prio kept
  · obtain ⟨peer, prio, kept, rfl⟩ := ha
    by_cases hpeer : k = peer
    · exact .inr (congrArg some hpeer.symm)
    · rw [(connect_allots hw peer prio kept).others k hpeer] at hk
      exact .inl hk
  · rw [(samePorts_act hw a fun peer prio kept heq => ha ⟨peer, prio, kept, heq⟩).ports k] at hk
    exact .inl hk

theorem mem_peers_run (seed : Key) (env : Env) {actions : List Action} {k : Key}
    (hk : k ∈ ((World.init seed env).run actions).router.tree.peers) : k ∈ registered actions := by
  rw [registered, List.mem_dedup, List.mem_filterMap]
  induction actions using List.reverseRecOn with
  | nil => exact absurd hk (AList.notMem_empty _)
  | append_singleton actions a ih =>
    rw [World.run_append] at hk
    rcases mem_peers_act (World.inv_run seed env actions) a hk with hk | hk
    · obtain ⟨b, hb, hkey⟩ := ih hk
      exact ⟨b, List.mem_append_left _ hb, hkey⟩
    · exact ⟨a, List.mem_append_right _ (List.mem_singleton_self a), hk⟩

theorem population_le (seed : Key) (env : Env) (actions : List Action) :
    ((World.init seed env).run actions).router.tree.population ≤ (registered actions).length := by
  refine (List.subperm_of_subset (AList.keys_nodup _) fun k hk => ?_).length_le
  exact mem_peers_run seed env (AList.mem_keys.mpr hk)

/-- **Of any two answers that are signed in a run, the ports are the same if and only if the
children are**, and no port is zero, as long as fewer than `2 ^ 64` keys were registered. -/
theorem ports_unambiguous (seed : Key) (env : Env) (actions : List Action)
    (hkeys : (registered actions).length < 2 ^ 64) :
    ∀ x ∈ (World.init seed env).signed actions, ∀ y ∈ (World.init seed env).signed actions,
      (x.2.port = y.2.port ↔ x.1 = y.1) ∧ x.2.port ≠ 0 := by
  intro x hx y hy
  have hinit : Inv .free (World.init seed env) := .init trivial env
  have hportx := port_of_mem_signed hinit hx
  have hporty := port_of_mem_signed hinit hy
  have hn := numbered_run seed env actions
  have hsize := Nat.lt_of_le_of_lt (population_le seed env actions) hkeys
  refine ⟨⟨fun heq => ?_, fun heq => ?_⟩, Counter.ne_zero_of_mem_given hsize (hn.given _ _ hportx)⟩
  · exact hn.apart hsize.le _ _ _ hportx (heq ▸ hporty)
  · rw [heq, hporty] at hportx
    exact (Option.some.inj hportx).symm

end

/-! ## The port after the last -/

section

attribute [local instance] Sample.lenient

/-- The key that spells a number. -/
def countKey (n : UInt64) : Key := ⟨toBeBytes n ++ List.replicate 24 0, rfl⟩

theorem countKey_injective : Function.Injective countKey := fun _ _ h =>
  toBeBytes_injective (List.append_cancel_right (congrArg Subtype.val h))

/-- A node in surroundings that take everything. -/
def host : World := .init (countKey 0) (.even 1)

/-- A request, as it comes. -/
def question : SigReq := ⟨1, 7⟩

/-- Two children. -/
def firstChild : Key := countKey 0xa000000000000000

def secondChild : Key := countKey 0xb000000000000000

/-- Both ask, and the first of them again after it reconnects. -/
def asking : List Action :=
  [.connect firstChild 0 true, .connect secondChild 0 true, .frame 0 .sigReq question.encode,
    .disconnect 0, .connect firstChild 0 true, .frame 1 .sigReq question.encode,
    .frame 2 .sigReq question.encode]

theorem asking_signed : (host.signed asking).map (fun x => (x.1, x.2.port)) =
    [(firstChild, 1), (secondChild, 2), (firstChild, 1)] := by decide +kernel

theorem ports_unambiguous_asking :
    (registered asking).length < 2 ^ 64 ∧
      ∃ x ∈ host.signed asking, ∃ y ∈ host.signed asking,
        x.1 = firstChild ∧ y.1 = secondChild ∧ x.2.port ≠ y.2.port := by
  have hkeys : (registered asking).length < 2 ^ 64 := by decide +kernel
  have hx : (firstChild, 1) ∈ (host.signed asking).map fun x => (x.1, x.2.port) := by
    rw [asking_signed]
    exact List.mem_cons_self ..
  have hy : (secondChild, 2) ∈ (host.signed asking).map fun x => (x.1, x.2.port) := by
    rw [asking_signed]
    exact List.mem_cons_of_mem _ (List.mem_cons_self ..)
  obtain ⟨x, hx, hxkey⟩ := List.mem_map.mp hx
  obtain ⟨y, hy, hykey⟩ := List.mem_map.mp hy
  have hxkey : x.1 = firstChild := congrArg Prod.fst hxkey
  have hykey : y.1 = secondChild := congrArg Prod.fst hykey
  refine ⟨hkeys, x, hx, y, hy, hxkey, hykey, fun hport => ?_⟩
  have hsame := ((ports_unambiguous _ _ asking hkeys x hx y hy).1).mp hport
  rw [hxkey, hykey] at hsame
  exact absurd (countKey_injective hsame) (by decide)

/-- Connections from one new key after the other. -/
def crowd (n : Nat) : List Action :=
  (List.range n).map fun i => .connect (countKey (.ofNat i)) 0 true

theorem crowd_succ (n : Nat) :
    crowd (n + 1) = crowd n ++ [.connect (countKey (.ofNat n)) 0 true] := by
  simp [crowd, List.range_succ]

/-- The next key of the crowd is new. -/
theorem crowd_new {n : Nat} (hn : n < 2 ^ 64) :
    countKey (.ofNat n) ∉ (host.run (crowd n)).router.tree.peers := by
  intro hmem
  have hkey := mem_peers_run _ _ hmem
  rw [registered, List.mem_dedup, List.mem_filterMap] at hkey
  obtain ⟨a, ha, hkey⟩ := hkey
  obtain ⟨i, hi, rfl⟩ := List.mem_map.mp ha
  have hi := List.mem_range.mp hi
  have heq : (0 : UInt64) + .ofNat i = 0 + .ofNat n := by
    rw [countKey_injective (Option.some.inj hkey)]
  have := Counter.ofNat_inj (hi.trans hn) hn heq
  omega

theorem host_inv (actions : List Action) : Inv .free (host.run actions) := World.inv_run _ _ actions

theorem crowd_population {n : Nat} (hn : n ≤ 2 ^ 64) :
    (host.run (crowd n)).router.tree.population = n := by
  induction n with
  | zero => rfl
  | succ n ih =>
    have hallots := connect_allots (host_inv (crowd n)) (countKey (.ofNat n)) 0 true
    rw [crowd_succ, World.run_append]
    have hown := Option.isSome_of_eq_some hallots.own
    have hsize := TreeState.population_insert (crowd_new hn) hown hallots.others
    rw [ih (Nat.le_of_succ_le hn)] at hsize
    exact hsize

/-- The last of the crowd asks, and is answered with the port after those of the others. -/
theorem crowd_signs {n : Nat} (hn : n < 2 ^ 64) :
    ∃ x ∈ host.signed (crowd (n + 1) ++
      [.frame (host.run (crowd n)).nextLink .sigReq question.encode]), x.2.port = 1 + .ofNat n := by
  have hinv := host_inv (crowd n)
  have htaken : (host.run (crowd n)).Taken := fun m => by
    rw [host, World.env_run]
    rfl
  have hnumbered := numbered_run (countKey 0) (.even 1) (crowd n)
  have hsize := crowd_population hn.le
  have hnew := crowd_new hn
  rw [signed_append, crowd_succ, World.run_append, World.run_cons, World.run_nil]
  generalize hw : host.run (crowd n) = w at hinv htaken hsize hnew ⊢
  rw [show (World.init (countKey 0) (.even 1)).run (crowd n) = w from hw] at hnumbered
  generalize countKey (.ofNat n) = k at hnew ⊢
  have hmem := connect_joins hinv htaken k 0
  have hinv' := inv_act hinv (.connect k 0 true)
  have hport := (connect_allots hinv k 0 true).own
  generalize w.act (.connect k 0 true) = w' at hmem hinv' hport ⊢
  have hpeer : w'.links.peerOf w.nextLink = some k := LinkSet.peerOf_of_mem hinv'.nodup hmem
  have hdecode : (SigReq.decode question.encode >>= Wire.exact) = .ok question := by decide
  have hnone : w.router.tree.portOf k = none := by
    rw [← Option.not_isSome_iff_eq_none, TreeState.portOf_isSome]
    exact hnew
  refine ⟨(k, w'.router.answer k question), List.mem_append_right _ (List.mem_append_left _ ?_), ?_⟩
  · rw [Option.mem_toList, World.signs, hpeer, hdecode]
  · show (w'.router.tree.portOf k).getD 0 = _
    rw [hport, hnone, Option.getD_none, Option.getD_some, hnumbered.next, hsize]

/-- The last of `2 ^ 64` keys is given port zero. -/
theorem port_zero_signed : ∃ actions, ∃ x ∈ host.signed actions, x.2.port = 0 := by
  have hlast : 2 ^ 64 - 1 < 2 ^ 64 := by decide
  obtain ⟨x, hx, hport⟩ := crowd_signs hlast
  exact ⟨_, x, hx, hport.trans (by decide)⟩

end

end Roots
