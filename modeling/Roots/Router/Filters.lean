import Roots.Router.Advertised

/-!
# Roots.Router.Filters

Filters at rest. If `bloom_maintenance` changes nothing (`World.Still`), then the marks of the tree
are those that `bloom_fix` computes, and the filter for a peer **has the router's own key and all
that the filters of its other peers on the tree have** (`World.Still.covers`).
-/

namespace Roots

open Prog RouterM

section

variable [Crypto] {w : World} {r : Router}

/-! ## What maintenance does to the books -/

omit [Crypto] in
theorem lookup_tableInsert_self {t : Assoc Key Bool} {k : Key} (h : k ∈ t) (v : Bool) :
    (tableInsert t k v).lookup k = some v := by
  rw [tableInsert, if_pos (.inl h), AList.lookup_insert]

omit [Crypto] in
theorem mem_tableInsert_of_mem {t : Assoc Key Bool} {k k' : Key} (h : k' ∈ t) (v : Bool) :
    k' ∈ tableInsert t k v := by
  unfold tableInsert
  split
  · exact AList.mem_insert t |>.mpr (.inr h)
  · exact h

/-- `bloom_fix` marks the peers it has. -/
theorem lookup_onTree_bloomFix {i : Info} (hi : r.tree.infos.lookup r.pubkey = some i) (p : Key) :
    r.bloomFix.onTree.lookup p =
      (r.bloom.onTree.lookup p).map fun _ => r.isOnTree i.parent p := by
  have hfold : ∀ (keys : List Key) (b : BloomState), (∀ k ∈ keys, k ∈ b.onTree) →
      (keys.foldl (r.fixPeer i.parent) b).onTree.lookup p =
        if p ∈ keys then some (r.isOnTree i.parent p) else b.onTree.lookup p := by
    intro keys
    induction keys with
    | nil => exact fun _ _ => rfl
    | cons k keys ih =>
      intro b hkeys
      rw [List.foldl_cons, ih]
      · by_cases hlater : p ∈ keys
        · rw [if_pos hlater, if_pos (List.mem_cons_of_mem k hlater)]
        · rw [if_neg hlater]
          show (tableInsert b.onTree k (r.isOnTree i.parent k)).lookup p = _
          by_cases hk : p = k
          · subst hk
            rw [lookup_tableInsert_self (hkeys p List.mem_cons_self), if_pos List.mem_cons_self]
          · rw [lookup_tableInsert_of_ne hk, if_neg]
            simp [hk, hlater]
      · exact fun k' hk' => mem_tableInsert_of_mem (hkeys k' (List.mem_cons_of_mem k hk')) _
  rw [Router.bloomFix, hi]
  refine (hfold _ _ fun k hk => AList.mem_keys.mp hk).trans ?_
  cases hp : r.bloom.onTree.lookup p with
  | none => exact if_neg fun hmem => AList.lookup_eq_none.mp hp (AList.mem_keys.mp hmem)
  | some on => exact if_pos (AList.mem_keys.mpr (Assoc.mem_iff_lookup.mpr ⟨on, hp⟩))

/-- It leaves the filters that were received alone. -/
theorem recv_bloomFix (r : Router) : r.bloomFix.recv = r.bloom.recv := by
  unfold Router.bloomFix
  split
  · rfl
  · rename_i i _
    have hfold : ∀ (keys : List Key) (b : BloomState),
        (keys.foldl (r.fixPeer i.parent) b).recv = b.recv := by
      intro keys
      induction keys with
      | nil => exact fun _ => rfl
      | cons k keys ih => exact fun b => ih (r.fixPeer i.parent b k)
    exact hfold _ _

theorem router_write (id : LinkId) (ftype : FrameType) (payload : Bytes) (w : World) :
    (write id ftype payload w).2.router = w.router := by
  by_cases hlive : id ∈ w.links.ids
  · rcases write_cases hlive ftype payload with ⟨w', hrun, hfan⟩ | ⟨-, hrun⟩
    · rw [hrun]
      exact hfan.router
    · rw [hrun]
      rfl
  · have hnone : (w.links.peerOf id).isNone = true := by
      rw [← Option.not_isSome, Bool.not_eq_true', Bool.eq_false_iff]
      exact fun h => hlive (LinkSet.peerOf_isSome.mp h)
    simp only [write, send, links, run_bind, run_gets, hnone, if_true]
    rfl

theorem router_writeAll (peer : Key) (ftype : FrameType) (payload : Bytes) (w : World) :
    (writeAll peer ftype payload w).2.router = w.router := by
  rw [writeAll, links, Prog.gets_bind]
  split
  · rfl
  · refine snd_forEach (P := fun w' : World => w'.router = w.router) rfl fun id _ w' hw' => ?_
    rw [router_write, hw']

/-- One peer of `bloom_maintenance` changes at most its own filter. -/
theorem advertise_router (pk : Key) (w : World) :
    (w.router.bloom.send.lookup pk = some (w.router.bloomFor pk) ∧
        advertise pk w = (.ok (), w)) ∨
      (w.router.bloom.send.lookup pk ≠ some (w.router.bloomFor pk) ∧
        (advertise pk w).2.router =
          { w.router with
            bloom.send := w.router.bloom.send.insert pk (w.router.bloomFor pk) }) := by
  rw [advertise, router, Prog.gets_bind]
  by_cases hsame : w.router.bloom.send.lookup pk = some (w.router.bloomFor pk)
  · rw [if_pos hsame]
    exact .inl ⟨hsame, rfl⟩
  · rw [if_neg hsame, modifyBloom, Prog.modify_bind, BloomFilter.encode_eq]
    refine .inr ⟨hsame, ?_⟩
    set v : World :=
      { w with router.bloom.send := w.router.bloom.send.insert pk (w.router.bloomFor pk) }
    change ((if (v.links.linksTo pk).isEmpty then return () else
      writeAll pk .bloomFilter (w.router.bloomFor pk).bytes : RouterM Unit) v).2.router = v.router
    split
    · rfl
    · exact router_writeAll _ _ _ v

/-- The marks are left alone, and so are the filters of the peers that are not gone through. -/
theorem forEach_advertise (peers : List Key) (w : World) :
    (forEach peers advertise w).2.router.bloom.onTree = w.router.bloom.onTree ∧
      ∀ pk ∉ peers, (forEach peers advertise w).2.router.bloom.send.lookup pk =
        w.router.bloom.send.lookup pk := by
  refine snd_forEach (P := fun w' : World => w'.router.bloom.onTree = w.router.bloom.onTree ∧
    ∀ pk ∉ peers, w'.router.bloom.send.lookup pk = w.router.bloom.send.lookup pk)
    ⟨rfl, fun _ _ => rfl⟩ fun pk hpk w' hw' => ?_
  rcases advertise_router pk w' with ⟨-, hrun⟩ | ⟨-, hrouter⟩
  · rw [hrun]
    exact hw'
  · rw [hrouter]
    refine ⟨hw'.1, fun k hk => ?_⟩
    have hne : k ≠ pk := by
      rintro rfl
      exact hk hpk
    show (w'.router.bloom.send.insert pk _).lookup k = _
    rw [Assoc.lookup_insert_ite, if_neg hne]
    exact hw'.2 k hk

/-- If the filters are the same at the end, none was out of date. -/
theorem forEach_advertise_same {peers : List Key} (hnodup : peers.Nodup) (w : World)
    (hsame : ∀ pk, (forEach peers advertise w).2.router.bloom.send.lookup pk =
      w.router.bloom.send.lookup pk) :
    ∀ pk ∈ peers, w.router.bloom.send.lookup pk = some (w.router.bloomFor pk) := by
  induction peers generalizing w with
  | nil => exact fun _ h => absurd h List.not_mem_nil
  | cons pk peers ih =>
    obtain ⟨hpk, hrest⟩ := List.nodup_cons.mp hnodup
    rcases advertise_router pk w with ⟨hlookup, hrun⟩ | ⟨hdiffers, hrouter⟩
    · have hloop : forEach (pk :: peers) advertise w = forEach peers advertise w :=
        run_bind_ok hrun
      rw [hloop] at hsame
      intro k hk
      rcases List.mem_cons.mp hk with rfl | hk
      · exact hlookup
      · exact ih hrest w hsame k hk
    · -- nothing puts the old filter back
      refine absurd ?_ hdiffers
      rw [← hsame pk]
      refine snd_bind
        (P := fun w' : World => w'.router.bloom.send.lookup pk = some (w.router.bloomFor pk))
        ?_ fun _ w' _ hw' => ?_
      · rw [hrouter]
        exact AList.lookup_insert _
      · rw [(forEach_advertise peers w').2 pk hpk, hw']

/-! ## Rest -/

/-- `bloom_maintenance` changes nothing in the books. -/
def World.Still (w : World) : Prop :=
  ∀ k, (bloomMaintenance w).2.router.bloom.onTree.lookup k = w.router.bloom.onTree.lookup k ∧
    (bloomMaintenance w).2.router.bloom.send.lookup k = w.router.bloom.send.lookup k

theorem mem_treePeers {k : Key} : k ∈ r.treePeers ↔ r.bloom.onTree.lookup k = some true := by
  simp [Router.treePeers, Assoc.mem_toList]

theorem nodup_treePeers (r : Router) : r.treePeers.Nodup := by
  have hkeys : (r.bloom.onTree.toList.map Prod.fst).Nodup := by
    have hnodup := r.bloom.onTree.nodupKeys
    rw [Assoc.toList, List.map_map]
    exact hnodup
  exact hkeys.sublist (List.filter_sublist.map Prod.fst)

/-- The filter for a peer has the router's own key, and what the other peers on the tree sent. -/
structure Covers (r : Router) (peer : Key) (b : BloomFilter) : Prop where
  own : b.test (xkey r.pubkey).toList = true
  heard : ∀ k f x, r.bloom.onTree.lookup k = some true → k ≠ peer →
    r.bloom.recv.lookup k = some f → f.test x = true → b.test x = true

omit [Crypto] in
/-- A scan whose steps keep what a filter matches has what one of them adds. -/
theorem test_foldl {step : BloomFilter → Key → BloomFilter} {x : Bytes}
    (hkeep : ∀ b k, b.test x = true → (step b k).test x = true) (keys : List Key) (b : BloomFilter)
    (h : b.test x = true ∨ ∃ k ∈ keys, ∀ b, (step b k).test x = true) :
    (keys.foldl step b).test x = true := by
  induction keys generalizing b with
  | nil =>
    rcases h with h | ⟨k, hk, -⟩
    · exact h
    · cases hk
  | cons k keys ih =>
    refine ih _ ?_
    rcases h with h | ⟨k', hk', hadds⟩
    · exact .inl (hkeep b k h)
    · rcases List.mem_cons.mp hk' with rfl | hk'
      · exact .inl (hadds b)
      · exact .inr ⟨k', hk', hadds⟩

theorem test_bloomFor {r : Router} {peer : Key} {x : Bytes}
    (h : (BloomFilter.empty.add (xkey r.pubkey).toList).test x = true ∨
      ∃ k ∈ sortKeys (r.treePeers.filter (· ≠ peer)), ∃ f, r.bloom.recv.lookup k = some f ∧
        f.test x = true) :
    (r.bloomFor peer).test x = true := by
  unfold Router.bloomFor
  dsimp only
  split
  case' h_1 => refine BloomFilter.test_merge_left ?_ _
  all_goals
    refine test_foldl (fun b k hb => ?_) _ _ (h.imp_right ?_)
    · split
      · exact BloomFilter.test_merge_left hb _
      · exact hb
    · rintro ⟨k, hk, f, hf, hx⟩
      refine ⟨k, hk, fun b => ?_⟩
      rw [hf]
      exact BloomFilter.test_merge_right _ hx

theorem covers_bloomFor (r : Router) (peer : Key) : Covers r peer (r.bloomFor peer) where
  own := test_bloomFor (.inl (BloomFilter.test_add _ _))
  heard k f x hon hne hf hx := by
    refine test_bloomFor (.inr ⟨k, ?_, f, hf, hx⟩)
    exact mem_sortKeys.mpr (List.mem_filter.mpr ⟨mem_treePeers.mpr hon, decide_eq_true hne⟩)

namespace World.Still

variable (h : w.Still)

include h

/-- The marks are those of `bloom_fix`. -/
theorem onTree {i : Info} (hi : w.router.tree.infos.lookup w.router.pubkey = some i) {p : Key}
    (hp : p ∈ w.router.bloom.onTree) :
    w.router.bloom.onTree.lookup p = some (w.router.isOnTree i.parent p) := by
  obtain ⟨on, hon⟩ := Assoc.mem_iff_lookup.mp hp
  have hfix := lookup_onTree_bloomFix hi p
  rw [hon, Option.map_some] at hfix
  rw [← (h p).1, ← hfix]
  exact congrArg (·.lookup p) (forEach_advertise _ _).1

/-- A peer on the tree has been sent a filter that covers the rest. -/
theorem covers {pk : Key} (hpk : w.router.bloom.onTree.lookup pk = some true) :
    ∃ b, w.router.bloom.send.lookup pk = some b ∧ Covers w.router pk b := by
  -- the state after `bloom_fix`
  obtain ⟨v, hv⟩ : ∃ v : World, v =
      { w with router.bloom := w.router.bloomFix, tick := w.tick + 1 } := ⟨_, rfl⟩
  obtain ⟨peers, hpeers⟩ : ∃ peers, peers = (w.env.order w.tick).run v.router.treePeers :=
    ⟨_, rfl⟩
  have hrun : bloomMaintenance w = forEach peers advertise v := by
    rw [hpeers, hv]
    rfl
  have honTree : ∀ k, v.router.bloom.onTree.lookup k = w.router.bloom.onTree.lookup k := by
    intro k
    rw [← (h k).1, hrun, (forEach_advertise peers v).1]
  have hfix : ∀ k, v.router.bloom.send.lookup k = w.router.bloom.send.lookup k := by
    intro k
    rw [hv]
    refine lookup_send_bloomFix fun i' hi' hon => ?_
    have hmem : k ∈ w.router.bloom.onTree := Assoc.mem_iff_lookup.mpr ⟨_, hon⟩
    rw [h.onTree hi' hmem, Option.some_inj] at hon
    exact hon
  have hperm : peers.Perm v.router.treePeers := hpeers ▸ (w.env.order w.tick).perm _
  have hsame := forEach_advertise_same (hperm.nodup_iff.mpr (nodup_treePeers _)) v fun k => by
    rw [← hrun, (h k).2, hfix]
  have hmem : pk ∈ peers := hperm.mem_iff.mpr (mem_treePeers.mpr (by rw [honTree, hpk]))
  have hcovers := covers_bloomFor v.router pk
  refine ⟨v.router.bloomFor pk, ?_, ?_, fun k f x hon hne hf hx => ?_⟩
  · rw [← hfix, hsame pk hmem]
  · have hkey : v.router.pubkey = w.router.pubkey := by rw [hv]
    rw [← hkey]
    exact hcovers.own
  · refine hcovers.heard k f x (by rw [honTree, hon]) hne ?_ hx
    have hrecv : v.router.bloom.recv = w.router.bloom.recv := by
      rw [hv]
      exact recv_bloomFix _
    rw [hrecv, hf]

end World.Still

end

end Roots
