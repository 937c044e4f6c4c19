import Roots.Router.State

/-!
# Roots.Router.Fanout

One frame for every link of a peer (`write_all`). The links are written in order **up to
the first socket that refuses the frame**: that link is retired, the links after it get
nothing, and the caller sees an error (`writeAll_cases`). `World.Whole` is a state in which
that leaves no link of the peer behind (`writeAll_whole`).
-/

namespace Roots

open Prog RouterM

variable [Crypto] {w w' : World} {ids : List LinkId} {ftype : FrameType} {payload : Bytes}

/-- The frame went out on each of the links, in order; each took two readings. -/
structure Fanned (ids : List LinkId) (ftype : FrameType) (payload : Bytes) (w w' : World) :
    Prop where
  router : w'.router = w.router
  entries : w'.links.entries = w.links.entries
  events : w'.events = w.events ++ ids.map fun id => .wrote id ftype payload
  env : w'.env = w.env
  tick : w'.tick = w.tick + 2 * ids.length
  taken : ∀ j < ids.length, w.env.writes (w.tick + 2 * j) = true

namespace Fanned

theorem nil (ftype : FrameType) (payload : Bytes) (w : World) : Fanned [] ftype payload w w :=
  ⟨rfl, rfl, (List.append_nil _).symm, rfl, rfl, fun _ h => absurd h (Nat.not_lt_zero _)⟩

theorem cons {id : LinkId} {w'' : World} (h : Fanned [id] ftype payload w w')
    (h' : Fanned ids ftype payload w' w'') : Fanned (id :: ids) ftype payload w w'' where
  router := h'.router.trans h.router
  entries := h'.entries.trans h.entries
  events := by simp [h'.events, h.events]
  env := h'.env.trans h.env
  tick := by
    rw [h'.tick, h.tick, List.length_singleton, List.length_cons]
    omega
  taken j hj := by
    cases j with
    | zero => exact h.taken 0 Nat.one_pos
    | succ j =>
      have htaken := h'.taken j (Nat.lt_of_succ_lt_succ hj)
      rw [h.env, h.tick, List.length_singleton] at htaken
      rwa [show w.tick + 2 * (j + 1) = w.tick + 2 * 1 + 2 * j by omega]

theorem mem_events (h : Fanned ids ftype payload w w') {e : Event} (he : e ∈ w.events) :
    e ∈ w'.events := by
  rw [h.events]
  exact List.mem_append_left _ he

theorem wrote (h : Fanned ids ftype payload w w') {id : LinkId} (hid : id ∈ ids) :
    .wrote id ftype payload ∈ w'.events := by
  rw [h.events]
  exact List.mem_append_right _ (List.mem_map_of_mem hid)

theorem linksTo_eq (h : Fanned ids ftype payload w w') (peer : Key) :
    w'.links.linksTo peer = w.links.linksTo peer := LinkSet.linksTo_congr h.entries peer

theorem ids_eq (h : Fanned ids ftype payload w w') : w'.links.ids = w.links.ids :=
  LinkSet.ids_congr h.entries

end Fanned

/-- The socket of a link refused a frame. -/
def World.refused (w : World) (id : LinkId) : World :=
  { w with
    tick := w.tick + 1
    links := w.links.remove id }

/-- A live link takes the frame or is retired. -/
theorem write_cases {id : LinkId} (hlive : id ∈ w.links.ids) (ftype : FrameType)
    (payload : Bytes) :
    (∃ w', write id ftype payload w = (.ok (), w') ∧ Fanned [id] ftype payload w w') ∨
      (w.env.writes w.tick = false ∧
        write id ftype payload w = (.error (.err .io), w.refused id)) := by
  have hsome := LinkSet.isNone_peerOf hlive
  have hrun : write id ftype payload w = if w.env.writes w.tick then
        (.ok (), { w with
          tick := w.tick + 2
          events := w.events ++ [.wrote id ftype payload]
          links.lastWrite := w.links.lastWrite.insert id (w.env.now (w.tick + 1)) })
      else (.error (.err .io), w.refused id) := by
    simp only [write, send, links, writeFrame, draw, run_bind, run_gets, hsome, Bool.false_eq_true,
      if_false]
    cases w.env.writes w.tick <;> rfl
  rw [hrun]
  cases htaken : w.env.writes w.tick with
  | true =>
    refine .inl ⟨_, rfl, rfl, rfl, rfl, rfl, rfl, fun j hj => ?_⟩
    cases Nat.lt_one_iff.mp hj
    exact htaken
  | false => exact .inr ⟨rfl, rfl⟩

/-- The links are written up to the first that refuses. -/
theorem forEach_write_cases (hlive : ∀ id ∈ ids, id ∈ w.links.ids) :
    (∃ w', forEach ids (fun id => write id ftype payload) w = (.ok (), w') ∧
        Fanned ids ftype payload w w') ∨
      ∃ done id rest w', ids = done ++ id :: rest ∧ Fanned done ftype payload w w' ∧
        w'.env.writes w'.tick = false ∧
        forEach ids (fun id => write id ftype payload) w =
          (.error (.err .io), w'.refused id) := by
  induction ids generalizing w with
  | nil => exact .inl ⟨w, rfl, .nil ftype payload w⟩
  | cons id ids ih =>
    have hids := fun i hi => hlive i (List.mem_cons_of_mem id hi)
    rcases write_cases (hlive id (List.mem_cons_self ..)) ftype payload with
      ⟨w₁, hrun, hfan⟩ | ⟨hrefused, hrun⟩
    · have hrest : forEach (id :: ids) (fun id => write id ftype payload) w =
          forEach ids (fun id => write id ftype payload) w₁ := run_bind_ok hrun
      rw [hrest]
      rcases ih (w := w₁) fun i hi => hfan.ids_eq ▸ hids i hi with
        ⟨w', hrun', hfan'⟩ | ⟨done, id', rest, w', hsplit, hfan', hrefused, hrun'⟩
      · exact .inl ⟨w', hrun', hfan.cons hfan'⟩
      · refine .inr ⟨id :: done, id', rest, w', ?_, hfan.cons hfan', hrefused, hrun'⟩
        rw [hsplit, List.cons_append]
    · exact .inr ⟨[], id, ids, w, rfl, .nil ftype payload w, hrefused, run_bind_error hrun⟩

/-- **`write_all` reaches every link of the peer, or stops at the first that refuses.** -/
theorem writeAll_cases {peer : Key} (hlinked : w.links.linksTo peer ≠ []) (ftype : FrameType)
    (payload : Bytes) :
    (∃ w', writeAll peer ftype payload w = (.ok (), w') ∧
        Fanned (w.links.linksTo peer) ftype payload w w') ∨
      ∃ done id rest w', w.links.linksTo peer = done ++ id :: rest ∧
        Fanned done ftype payload w w' ∧ w'.env.writes w'.tick = false ∧
        writeAll peer ftype payload w = (.error (.err .io), w'.refused id) := by
  have hrun : writeAll peer ftype payload w =
      forEach (w.links.linksTo peer) (fun id => write id ftype payload) w := by
    have hnonempty : (w.links.linksTo peer).isEmpty = false :=
      (Bool.not_eq_true _).mp fun h => hlinked (List.isEmpty_iff.mp h)
    simp only [writeAll, links, Prog.gets_bind, hnonempty]
    rfl
  rw [hrun]
  exact forEach_write_cases fun id hid => LinkSet.mem_ids_of_mem_linksTo hid

/-- No fan-out can leave a link behind: no peer has two links, or no socket refuses a frame
from now on. -/
def World.Whole (w : World) : Prop :=
  (∀ peer, (w.links.linksTo peer).length ≤ 1) ∨ ∀ n, w.tick ≤ n → w.env.writes n = true

/-- It stays so when links go and time passes. -/
theorem World.Whole.of_sublist (h : w.Whole) (hentries : w'.links.entries.Sublist w.links.entries)
    (henv : w'.env = w.env) (htick : w.tick ≤ w'.tick) : w'.Whole := by
  refine h.imp (fun hsolo p => ?_) fun hsure n hn => ?_
  · exact (((hentries.filter _).map _).length_le).trans (hsolo p)
  · rw [henv]
    exact hsure n (htick.trans hn)

/-- In such a state the frame reaches every link of the peer, or the peer is left without a
link. -/
theorem writeAll_whole (hwhole : w.Whole) (hnodup : w.links.ids.Nodup) {peer : Key}
    (hlinked : w.links.linksTo peer ≠ []) (ftype : FrameType) (payload : Bytes) :
    (∃ w', writeAll peer ftype payload w = (.ok (), w') ∧
        Fanned (w.links.linksTo peer) ftype payload w w') ∨
      ∃ id w', Fanned [] ftype payload w w' ∧
        writeAll peer ftype payload w = (.error (.err .io), w'.refused id) ∧
        (w'.refused id).links.linksTo peer = [] := by
  rcases writeAll_cases hlinked ftype payload with
    hok | ⟨done, id, rest, w', hsplit, hfan, hrefused, hrun⟩
  · exact .inl hok
  · rcases hwhole with hsolo | hsure
    · have hlen := hsolo peer
      rw [hsplit, List.length_append, List.length_cons] at hlen
      obtain rfl : done = [] := List.eq_nil_of_length_eq_zero (by omega)
      obtain rfl : rest = [] := List.eq_nil_of_length_eq_zero (by omega)
      refine .inr ⟨id, w', hfan, hrun, List.eq_nil_iff_forall_not_mem.mpr fun id' hid' => ?_⟩
      obtain ⟨hmem, hne⟩ := (LinkSet.mem_linksTo_remove (hfan.ids_eq ▸ hnodup)).mp hid'
      rw [hfan.linksTo_eq, hsplit] at hmem
      exact hne (List.mem_singleton.mp hmem)
    · rw [hfan.env, hfan.tick] at hrefused
      rw [hsure _ (Nat.le_add_right _ _)] at hrefused
      cases hrefused

end Roots
