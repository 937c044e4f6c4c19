import Roots.Lib.Walk
import Roots.Router.Tree

/-!
# Roots.Router.Walks

The four walks up the tree: `root_and_dists` for the choice of a parent, `ancestry` for the
announces, `root_path_for` for coordinates and `root_and_depth` for the views. Each has a loop of
its own, with a check of its own for circles, and the infos may be anything: a parent may be
missing, be the node itself or lead round in a circle.

All of them go along the same `Way`, so **they agree on every table** (`walkers_agree`). The first
three remember where they have been. `root_and_depth` does not, and gives up after 1024 steps.
-/

namespace Roots

open Walk
open Sample (smallKey)

namespace TreeState

/-- The loop of `root_and_depth`. -/
def depthLoop (infos : Assoc Key Info) : Nat → Key → Nat → Option (Key × Nat)
  | 0, _, _ => none
  | fuel + 1, next, depth =>
      match infos.lookup next with
      | none => none
      | some info =>
          if info.parent = next then some (next, depth)
          else if depth + 1 > 1024 then none
          else depthLoop infos fuel info.parent (depth + 1)

/-- `root_and_depth`. -/
def rootAndDepth (infos : Assoc Key Info) (pubkey : Key) : Option (Key × Nat) :=
  depthLoop infos 1025 pubkey 0

/-! ## One turn of each loop -/

/-- A turn of `root_and_dists`, with `next`, `root`, `dist` and `dists`. -/
def rootTurn (infos : Assoc Key Info) : Key × Key × UInt64 × Assoc Key UInt64 →
    (Key × Key × UInt64 × Assoc Key UInt64) ⊕ (Key × Assoc Key UInt64)
  | (next, root, dist, dists) =>
      if next ∈ dists then .inr (root, dists)
      else
        match infos.lookup next with
        | some info => .inl (info.parent, next, dist + 1, dists.insert next dist)
        | none => .inr (root, dists)

/-- A turn of `ancestry`, with `anc` in the order of the result and `here`. -/
def ancestryTurn (infos : Assoc Key Info) : List Key × Key → (List Key × Key) ⊕ List Key
  | (anc, here) =>
      match infos.lookup here with
      | some info => if info.parent ∈ anc then .inr anc else .inl (info.parent :: anc, info.parent)
      | none => .inr anc.tail

/-- A turn of `root_path_for`, with `ports` in the order of the result, `seen` and `next`. -/
def rootPathTurn (infos : Assoc Key Info) : List UInt64 × List Key × Key →
    (List UInt64 × List Key × Key) ⊕ Option (List UInt64)
  | (ports, seen, next) =>
      if next ∈ seen then .inr none
      else
        match infos.lookup next with
        | none => .inr none
        | some info =>
            if next = info.parent then .inr (some ports)
            else .inl (info.res.port :: ports, next :: seen, info.parent)

/-- A turn of `root_and_depth`. -/
def depthTurn (infos : Assoc Key Info) : Key × Nat → (Key × Nat) ⊕ Option (Key × Nat)
  | (next, depth) =>
      match infos.lookup next with
      | none => .inr none
      | some info =>
          if info.parent = next then .inr (some (next, depth))
          else if depth + 1 > 1024 then .inr none
          else .inl (info.parent, depth + 1)

/-! ## Along the way -/

section

variable {infos : Assoc Key Info} {seen rest : List Key} {here : Key}

/-- The pointers the walks follow. -/
def parentOf (infos : Assoc Key Info) (k : Key) : Option Key := (infos.lookup k).map Info.parent

theorem parentOf_eq_some {k p : Key} :
    parentOf infos k = some p ↔ ∃ info, infos.lookup k = some info ∧ info.parent = p :=
  Option.map_eq_some_iff

theorem parentOf_eq_none {k : Key} : parentOf infos k = none ↔ infos.lookup k = none :=
  Option.map_eq_none_iff

theorem mem_keys_of_parentOf (infos : Assoc Key Info) (k : Key) (h : (parentOf infos k).isSome) :
    k ∈ infos.keys.toFinset := by
  rw [parentOf, Option.isSome_map, Option.isSome_iff_exists] at h
  exact List.mem_toFinset.mpr (Assoc.mem_iff_lookup.mpr h)

/-- What `root_and_dists` gives: the last key it visits, and the distance of each. -/
structure Measured (dists : Assoc Key UInt64) (dist : UInt64) (root : Key) (rest : List Key)
    (r : Key × Assoc Key UInt64) : Prop where
  root : r.1 = rest.getLastD root
  mem : ∀ x, x ∈ r.2 ↔ x ∈ dists ∨ x ∈ rest
  kept : ∀ x, x ∉ rest → r.2.lookup x = dists.lookup x
  dist : ∀ i x, rest[i]? = some x → r.2.lookup x = some (dist + UInt64.ofNat i)

theorem Measured.cons {dists : Assoc Key UInt64} {dist : UInt64} {root : Key}
    {r : Key × Assoc Key UInt64} (hnew : here ∉ rest)
    (h : Measured (dists.insert here dist) (dist + 1) here rest r) :
    Measured dists dist root (here :: rest) r where
  root := by rw [h.root, List.getLastD_cons]
  mem x := by
    rw [h.mem, AList.mem_insert, List.mem_cons]
    tauto
  kept x hx := by
    rw [List.mem_cons, not_or] at hx
    rw [h.kept x hx.2, AList.lookup_insert_ne hx.1]
  dist i x hx := by
    cases i with
    | zero =>
      obtain rfl := Option.some.inj hx
      rw [h.kept _ hnew, AList.lookup_insert]
      simp
    | succ i =>
      rw [h.dist i x hx, UInt64.add_assoc, UInt64.add_comm 1, UInt64.ofNat_add]
      rfl

theorem rootLoop_measured (hway : Way (parentOf infos) seen here rest) :
    ∀ (fuel : Nat) (root : Key) (dist : UInt64) (dists : Assoc Key UInt64), rest.length < fuel →
      (∀ x, x ∈ dists ↔ x ∈ seen) →
      Ends (rootTurn infos) (here, root, dist, dists) (rootLoop infos fuel here root dist dists) ∧
      Measured dists dist root rest (rootLoop infos fuel here root dist dists) := by
  have hstop : ∀ {root : Key} {dist : UInt64} {dists : Assoc Key UInt64},
      Measured dists dist root [] (root, dists) := by
    intro root dist dists
    exact ⟨rfl, by simp, fun _ _ => rfl, by simp⟩
  induction hway with
  | @off seen here hoff =>
    intro fuel root dist dists hfuel hdists
    obtain ⟨fuel, rfl⟩ := Nat.exists_eq_succ_of_ne_zero (Nat.ne_of_gt hfuel)
    rw [parentOf_eq_none] at hoff
    have hloop : rootLoop infos (fuel + 1) here root dist dists = (root, dists) := by
      rw [rootLoop, hoff, ite_self]
    rw [hloop]
    exact ⟨.last (by simp only [rootTurn, hoff, ite_self]), hstop⟩
  | @met seen here hmet =>
    intro fuel root dist dists hfuel hdists
    obtain ⟨fuel, rfl⟩ := Nat.exists_eq_succ_of_ne_zero (Nat.ne_of_gt hfuel)
    have hmem : here ∈ dists := (hdists here).mpr hmet
    rw [rootLoop, if_pos hmem]
    exact ⟨.last (by simp only [rootTurn, if_pos hmem]), hstop⟩
  | @step seen rest here next hnew hup hrest ih =>
    intro fuel root dist dists hfuel hdists
    obtain ⟨fuel, rfl⟩ := Nat.exists_eq_succ_of_ne_zero (Nat.ne_of_gt (Nat.zero_lt_of_lt hfuel))
    obtain ⟨info, hinfo, rfl⟩ := parentOf_eq_some.mp hup
    have hmem : here ∉ dists := fun h => hnew ((hdists here).mp h)
    have hloop : rootLoop infos (fuel + 1) here root dist dists =
        rootLoop infos fuel info.parent here (dist + 1) (dists.insert here dist) := by
      rw [rootLoop, if_neg hmem, hinfo]
    have hdists' : ∀ x, x ∈ dists.insert here dist ↔ x ∈ here :: seen := by
      intro x
      rw [AList.mem_insert, List.mem_cons, hdists]
    obtain ⟨hends, hmeasured⟩ := ih fuel here (dist + 1) _ (Nat.lt_of_succ_lt_succ hfuel) hdists'
    rw [hloop]
    refine ⟨.next ?_ hends, hmeasured.cons fun h => hrest.notMem_seen _ h List.mem_cons_self⟩
    simp only [rootTurn, if_neg hmem, hinfo]

/-- `ancestry` keeps all keys it visits, root first. -/
theorem ancestryLoop_eq (hway : Way (parentOf infos) seen here rest) :
    ∀ (fuel : Nat), here ∉ seen → rest.length < fuel →
      Ends (ancestryTurn infos) (here :: seen, here) (rest.reverse ++ seen) ∧
      ancestryLoop infos fuel (here :: seen) here = rest.reverse ++ seen := by
  induction hway with
  | @off seen here hoff =>
    intro fuel _ hfuel
    obtain ⟨fuel, rfl⟩ := Nat.exists_eq_succ_of_ne_zero (Nat.ne_of_gt hfuel)
    rw [parentOf_eq_none] at hoff
    refine ⟨.last (by simp [ancestryTurn, hoff]), ?_⟩
    rw [ancestryLoop, hoff]
    rfl
  | met hmet =>
    intro fuel hnew _
    exact absurd hmet hnew
  | @step seen rest here next hnew hup hrest ih =>
    intro fuel _ hfuel
    obtain ⟨fuel, rfl⟩ := Nat.exists_eq_succ_of_ne_zero (Nat.ne_of_gt (Nat.zero_lt_of_lt hfuel))
    obtain ⟨info, hinfo, rfl⟩ := parentOf_eq_some.mp hup
    rw [List.reverse_cons, List.append_assoc, List.singleton_append]
    by_cases hmet : info.parent ∈ here :: seen
    · obtain rfl := hrest.eq_nil_of_mem hmet
      refine ⟨.last (by simp only [ancestryTurn, hinfo, if_pos hmet]; rfl), ?_⟩
      simp only [ancestryLoop, hinfo, if_pos hmet]
      rfl
    · obtain ⟨hends, hloop⟩ := ih fuel hmet (Nat.lt_of_succ_lt_succ hfuel)
      refine ⟨.next (by simp only [ancestryTurn, hinfo, if_neg hmet]) hends, ?_⟩
      simp only [ancestryLoop, hinfo, if_neg hmet]
      exact hloop

/-- `root_path_for` gives a path if and only if the last key it visits is its own parent, and then
a port for every other key. -/
theorem rootPathLoop_spec (hway : Way (parentOf infos) seen here rest) :
    ∀ (fuel : Nat) (ports : List UInt64), rest.length < fuel →
      Ends (rootPathTurn infos) (ports, seen, here) (rootPathLoop infos fuel ports seen here) ∧
      (∀ ps, rootPathLoop infos fuel ports seen here = some ps →
        ps.length + 1 = ports.length + rest.length ∧
          ∃ root, rest.getLast? = some root ∧ parentOf infos root = some root) ∧
      ∀ root, rest.getLast? = some root → parentOf infos root = some root →
        (rootPathLoop infos fuel ports seen here).isSome := by
  induction hway with
  | @off seen here hoff =>
    intro fuel ports hfuel
    obtain ⟨fuel, rfl⟩ := Nat.exists_eq_succ_of_ne_zero (Nat.ne_of_gt hfuel)
    rw [parentOf_eq_none] at hoff
    have hloop : rootPathLoop infos (fuel + 1) ports seen here = none := by
      rw [rootPathLoop, hoff, ite_self]
    rw [hloop]
    exact ⟨.last (by simp only [rootPathTurn, hoff, ite_self]), by simp, by simp⟩
  | @met seen here hmet =>
    intro fuel ports hfuel
    obtain ⟨fuel, rfl⟩ := Nat.exists_eq_succ_of_ne_zero (Nat.ne_of_gt hfuel)
    rw [rootPathLoop, if_pos hmet]
    exact ⟨.last (by simp only [rootPathTurn, if_pos hmet]), by simp, by simp⟩
  | @step seen rest here next hnew hup hrest ih =>
    intro fuel ports hfuel
    obtain ⟨fuel, rfl⟩ := Nat.exists_eq_succ_of_ne_zero (Nat.ne_of_gt (Nat.zero_lt_of_lt hfuel))
    obtain ⟨info, hinfo, rfl⟩ := parentOf_eq_some.mp hup
    by_cases hroot : here = info.parent
    · have hloop : rootPathLoop infos (fuel + 1) ports seen here = some ports := by
        simp only [rootPathLoop, if_neg hnew, hinfo, if_pos hroot]
      obtain rfl := hrest.eq_nil_of_mem (hroot ▸ List.mem_cons_self)
      rw [hloop]
      refine ⟨.last (by simp only [rootPathTurn, if_neg hnew, hinfo, if_pos hroot]), ?_, by simp⟩
      intro ps hps
      obtain rfl := Option.some.inj hps
      exact ⟨rfl, here, rfl, hup.trans (congrArg some hroot.symm)⟩
    · have hloop : rootPathLoop infos (fuel + 1) ports seen here =
          rootPathLoop infos fuel (info.res.port :: ports) (here :: seen) info.parent := by
        simp only [rootPathLoop, if_neg hnew, hinfo, if_neg hroot]
      obtain ⟨hends, hsome, hfixed⟩ := ih fuel (info.res.port :: ports)
        (Nat.lt_of_succ_lt_succ hfuel)
      rw [hloop]
      refine ⟨.next (by simp only [rootPathTurn, if_neg hnew, hinfo, if_neg hroot]) hends, ?_, ?_⟩
      · intro ps hps
        obtain ⟨hlen, root, hlast, hself⟩ := hsome ps hps
        refine ⟨by rw [hlen, List.length_cons, List.length_cons]; omega, root, ?_, hself⟩
        rw [List.getLast?_cons, hlast]
        rfl
      · intro root hlast hself
        cases rest with
        | nil =>
          rw [List.getLast?_singleton] at hlast
          obtain rfl := Option.some.inj hlast
          rw [hup] at hself
          exact absurd (Option.some.inj hself).symm hroot
        | cons x rest => exact hfixed root hlast hself

/-- `root_and_depth` finds the top of the climb, if that takes at most 1024 steps. -/
theorem depthLoop_spec (infos : Assoc Key Info) : ∀ (fuel : Nat) (here : Key) (depth : Nat),
    depth ≤ 1024 → fuel + depth = 1025 →
      Ends (depthTurn infos) (here, depth) (depthLoop infos fuel here depth) ∧
      ∀ root d, depthLoop infos fuel here depth = some (root, d) ↔
        ∃ n, Rises (parentOf infos) n here root ∧ d = depth + n ∧ depth + n ≤ 1024 := by
  intro fuel
  induction fuel with
  | zero =>
    intro here depth hdepth hfuel
    omega
  | succ fuel ih =>
    intro here depth hdepth hfuel
    cases hinfo : infos.lookup here with
    | none =>
      have hup : parentOf infos here = none := parentOf_eq_none.mpr hinfo
      simp only [depthLoop, hinfo]
      refine ⟨.last (by simp only [depthTurn, hinfo]), fun root d => ⟨by simp, ?_⟩⟩
      intro ⟨n, hrises, _⟩
      cases hrises with
      | top hup' => rw [hup] at hup'; cases hup'
      | step hup' _ _ => rw [hup] at hup'; cases hup'
    | some info =>
      have hup : parentOf infos here = some info.parent := parentOf_eq_some.mpr ⟨info, hinfo, rfl⟩
      by_cases hself : info.parent = here
      · -- The top: no other climb starts here.
        have htop : Rises (parentOf infos) 0 here here := .top (hup.trans (congrArg some hself))
        simp only [depthLoop, hinfo, if_pos hself]
        refine ⟨.last (by simp only [depthTurn, hinfo, if_pos hself]), fun root d => ⟨?_, ?_⟩⟩
        · intro h
          obtain ⟨rfl, rfl⟩ := Prod.mk.inj (Option.some.inj h)
          exact ⟨0, htop, rfl, hdepth⟩
        · intro ⟨n, hrises, hd, _⟩
          obtain ⟨rfl, rfl⟩ := htop.unique hrises
          rw [hd]
          rfl
      · have hstep : ∀ n root, Rises (parentOf infos) n here root ↔
            ∃ m, n = m + 1 ∧ Rises (parentOf infos) m info.parent root := by
          intro n root
          constructor
          · intro hrises
            cases hrises with
            | top hup' =>
              rw [hup] at hup'
              exact absurd (Option.some.inj hup') hself
            | step hup' _ hrest =>
              rw [hup] at hup'
              obtain rfl := Option.some.inj hup'
              exact ⟨_, rfl, hrest⟩
          · intro ⟨m, hm, hrest⟩
            exact hm ▸ .step hup hself hrest
        by_cases hlimit : depth + 1 > 1024
        · simp only [depthLoop, hinfo, if_neg hself, if_pos hlimit]
          refine ⟨.last (by simp only [depthTurn, hinfo, if_neg hself, if_pos hlimit]),
            fun root d => ⟨by simp, ?_⟩⟩
          intro ⟨n, hrises, _, hle⟩
          obtain ⟨m, rfl, _⟩ := (hstep n root).mp hrises
          omega
        · obtain ⟨hends, hspec⟩ := ih info.parent (depth + 1) (by omega) (by omega)
          simp only [depthLoop, hinfo, if_neg hself, if_neg hlimit]
          refine ⟨.next (by simp only [depthTurn, hinfo, if_neg hself, if_neg hlimit]) hends,
            fun root d => (hspec root d).trans ⟨?_, ?_⟩⟩
          · intro ⟨m, hrises, hd, hle⟩
            exact ⟨m + 1, (hstep _ _).mpr ⟨m, rfl, hrises⟩, by omega, by omega⟩
          · intro ⟨n, hrises, hd, hle⟩
            obtain ⟨m, rfl, hrest⟩ := (hstep n root).mp hrises
            exact ⟨m, hrest, by omega, by omega⟩

/-- The walk from a key with an info: it has a last key, and it is no longer than the table. -/
theorem exists_way {k : Key} (hk : k ∈ infos) :
    ∃ rest root dist, Way (parentOf infos) [] k rest ∧ rest.getLast? = some root ∧
      rest.length = dist + 1 ∧ rest.length < infos.keys.length + 1 := by
  obtain ⟨info, hinfo⟩ := Assoc.mem_iff_lookup.mp hk
  obtain ⟨rest, hway⟩ := Way.exists_of_finite (mem_keys_of_parentOf infos) [] k
  have hlen : rest.length ≤ infos.keys.length :=
    (hway.length_le (mem_keys_of_parentOf infos)).trans infos.keys.toFinset_card_le
  cases hway with
  | off hoff =>
    rw [parentOf_eq_none, hinfo] at hoff
    cases hoff
  | met hmet => cases hmet
  | step hnew hup hrest =>
    exact ⟨_, _, _, .step hnew hup hrest, List.getLast?_cons, rfl, Nat.lt_succ_of_le hlen⟩

theorem rootAndDepth_eq {k root : Key} {dist : Nat} (hway : Way (parentOf infos) [] k rest)
    (hlast : rest.getLast? = some root) (hdist : rest.length = dist + 1) :
    rootAndDepth infos k =
      if parentOf infos root = some root ∧ dist ≤ 1024 then some (root, dist) else none := by
  have hdepth : ∀ r d, rootAndDepth infos k = some (r, d) ↔
      ∃ n, Rises (parentOf infos) n k r ∧ d = 0 + n ∧ 0 + n ≤ 1024 :=
    (depthLoop_spec infos 1025 k 0 (by decide) rfl).2
  refine Option.ext fun x => ?_
  obtain ⟨r, d⟩ := x
  simp only [hdepth, hway.rises_iff hlast hdist]
  split
  · rename_i h
    constructor
    · intro ⟨n, ⟨_, hn, hr⟩, hd, _⟩
      rw [hd, hn, hr, Nat.zero_add]
    · intro heq
      obtain ⟨rfl, rfl⟩ := Prod.mk.inj (Option.some.inj heq)
      exact ⟨dist, ⟨h.1, rfl, rfl⟩, by omega, by omega⟩
  · rename_i h
    constructor
    · intro ⟨n, ⟨hself, hn, _⟩, _, hle⟩
      exact absurd ⟨hself, by omega⟩ h
    · intro heq
      cases heq

/-- **The four walks agree on every table**, for every key with an info. They all end. `ancestry`
lists the keys of `root_and_dists`, from its root on. `root_path_for` gives a path if that root is
its own parent, with a port for each step, and so does `root_and_depth`, up to 1024 steps. -/
theorem walkers_agree {k : Key} (hk : k ∈ infos) :
    (Ends (rootTurn infos) (k, k, 0, ∅) (rootAndDists infos k) ∧
      Ends (ancestryTurn infos) ([k], k) (ancestry infos k) ∧
      Ends (rootPathTurn infos) ([], [], k) (rootPathFor infos k) ∧
      Ends (depthTurn infos) (k, 0) (rootAndDepth infos k)) ∧
    (ancestry infos k).Nodup ∧
    (∀ x, x ∈ ancestry infos k ↔ x ∈ (rootAndDists infos k).2) ∧
    ∃ root dist, (rootAndDists infos k).1 = root ∧ (ancestry infos k).length = dist + 1 ∧
      (ancestry infos k).head? = some root ∧
      (rootAndDists infos k).2.lookup root = some (UInt64.ofNat dist) ∧
      ((rootPathFor infos k).isSome ↔ ∃ info, infos.lookup root = some info ∧ info.parent = root) ∧
      (∀ ports, rootPathFor infos k = some ports → ports.length = dist) ∧
      rootAndDepth infos k =
        if (rootPathFor infos k).isSome ∧ dist ≤ 1024 then some (root, dist) else none := by
  obtain ⟨rest, root, dist, hway, hlast, hdist, hlen⟩ := exists_way hk
  obtain ⟨hrootEnds, hmeasured⟩ := rootLoop_measured hway _ k 0 ∅ hlen (by simp)
  obtain ⟨hancestryEnds, hancestry⟩ := ancestryLoop_eq hway _ List.not_mem_nil hlen
  obtain ⟨hpathEnds, hports, hpath⟩ := rootPathLoop_spec hway _ [] hlen
  have hdepthEnds := (depthLoop_spec infos 1025 k 0 (by decide) rfl).1
  rw [List.append_nil] at hancestry hancestryEnds
  change Measured _ _ _ _ (rootAndDists infos k) at hmeasured
  change ancestry infos k = rest.reverse at hancestry
  have hroot : (rootAndDists infos k).1 = root := by
    rw [hmeasured.root, List.getLastD_eq_getLast?, hlast]
    rfl
  have hindex : rest[dist]? = some root := by
    rw [← hlast, List.getLast?_eq_getElem?, hdist]
    rfl
  have hself : (rootPathFor infos k).isSome ↔ parentOf infos root = some root := by
    constructor
    · intro h
      obtain ⟨ps, hps⟩ := Option.isSome_iff_exists.mp h
      obtain ⟨_, root', hlast', hfixed⟩ := hports ps hps
      rw [hlast] at hlast'
      exact Option.some.inj hlast' ▸ hfixed
    · exact hpath root hlast
  refine ⟨⟨hrootEnds, hancestry ▸ hancestryEnds, hpathEnds, hdepthEnds⟩, ?_, ?_, root, dist, hroot,
    ?_, ?_, ?_, ?_, ?_, ?_⟩
  · rw [hancestry]
    exact List.nodup_reverse.mpr hway.nodup
  · intro x
    rw [hancestry, List.mem_reverse, hmeasured.mem]
    simp
  · rw [hancestry, List.length_reverse, hdist]
  · rw [hancestry, List.head?_reverse, hlast]
  · rw [hmeasured.dist dist root hindex, UInt64.zero_add]
  · rw [hself, parentOf_eq_some]
  · intro ports hps
    have hcount := (hports ports hps).1
    rw [hdist, List.length_nil] at hcount
    omega
  · rw [rootAndDepth_eq hway hlast hdist]
    exact if_congr (and_congr_left fun _ => hself.symm) rfl rfl

end

/-- Two nodes that are each other's parent. -/
def circle : Assoc Key Info :=
  let info (parent : Key) : Info := ⟨parent, ⟨⟨0, 0⟩, 1, .replicate 64 0⟩, .replicate 64 0⟩
  ((∅ : Assoc Key Info).insert (smallKey 5) (info (smallKey 6))).insert
    (smallKey 6) (info (smallKey 5))

/-- The walks of a circle end at the other node, and no path is found. -/
theorem walkers_agree_circle :
    smallKey 5 ∈ circle ∧ (ancestry circle (smallKey 5)).Nodup ∧
      ancestry circle (smallKey 5) = [smallKey 6, smallKey 5] ∧
      rootPathFor circle (smallKey 5) = none :=
  have hmem : smallKey 5 ∈ circle := by decide
  ⟨hmem, (walkers_agree hmem).2.1, by decide, by decide⟩

end TreeState

end Roots
