import Roots.Router.Rules.Tree

/-!
# Roots.Router.Rules.Beside

The methods of the tree and of the bloom table once more, for rules that do not care what is in
these two: such a method writes frames and changes the tree, the filters and the links, and
**leaves sessions, paths and queues alone**. Whatever rules allow that (`Beside`) allow the method.
-/

namespace Roots

open Prog RouterM

variable [Crypto]

/-- Rules under which the tree, the bloom table and the links may change in any way, every frame
but lookups may be written and a method may stop as it likes. -/
class Beside (R : Rules World Exit) : Prop extends Writes R where
  tree : ∀ w t, R.inv w → R.step w { w with router.tree := t }
  bloom : ∀ w b, R.inv w → R.step w { w with router.bloom := b }
  filter : Records R .bloomFilter
  leave : ∀ w id, R.inv w →
    R.step w { w with links := w.links.remove id, router.tree.links := w.router.tree.links.erase id }
  mild : ∀ e w, ¬ R.bad e w

section

variable {R : Rules World Exit} [Beside R]

theorem records_beside {ftype : FrameType} (hne : ftype ≠ .pathLookup) : Records R ftype := by
  by_cases hfilter : ftype = .bloomFilter
  · rw [hfilter]
    exact Beside.filter
  · exact Writes.wrote hfilter hne

theorem exit_beside {α : Type} (e : Exit) : R.Allows (exit e : RouterM α) := .exit (Beside.mild e)

theorem ifOk_beside {α : Type} (r : Except Exit α) : R.Allows (ifOk r) := by
  unfold ifOk
  split
  · exact .pure _
  · exact .pure _
  · exact exit_beside _

theorem checked_beside {α : Type} (x : Option α) : R.Allows (checked x) := by
  cases x with
  | none => exact exit_beside _
  | some a => exact .pure _

theorem lift_beside {α : Type} (r : Except Exit α) : R.Allows (lift r) :=
  fun _ _ => ⟨.refl, fun e _ => Beside.mild e _⟩

omit [Beside R] in
/-- A method whose `Err` is looked at. -/
theorem result_beside {α β : Type} {m : RouterM α} {f : Except Exit α → RouterM β}
    (hm : R.Allows m) (hf : ∀ r, R.Allows (f r)) : R.Allows (result m >>= f) :=
  .bind (.attempt hm) hf

theorem modifyTree_beside (f : TreeState → TreeState) : R.Allows (modifyTree f) :=
  .modify fun w hw => Beside.tree w _ hw

theorem modifyBloom_beside (f : BloomState → BloomState) : R.Allows (modifyBloom f) :=
  .modify fun w hw => Beside.bloom w _ hw

theorem disconnect_beside (id : LinkId) : R.Allows (disconnect id) :=
  .modify fun w hw => Beside.leave w id hw

/-! ## The tree -/

theorem newReq_beside : R.Allows newReq :=
  .gets_bind fun _ => .bind (draw_allows _) fun _ => .pure _

theorem sendReq_beside (peerKey : Key) : R.Allows (sendReq peerKey) := by
  refine .bind newReq_beside fun req => .bind (modifyTree_beside _) fun _ => .gets_bind fun ls => ?_
  refine .bind (modifyTree_beside _) fun _ => ?_
  refine result_beside (writeAll_allows (records_beside (by decide)) _ _) fun sent => ?_
  split
  · exact .bind (draw_allows _) fun _ => modifyTree_beside _
  · exact exit_beside _

theorem handleRequest_beside (conn : LinkId) (peerKey : Key) (req : SigReq) :
    R.Allows (handleRequest conn peerKey req) :=
  .gets_bind fun _ => write_allows (records_beside (by decide)) _ _

theorem handleResponse_beside (conn : LinkId) (peerKey : Key) (res : SigRes) :
    R.Allows (handleResponse conn peerKey res) := by
  refine .gets_bind fun r => .ite (.pure _) ?_
  refine .bind (draw_allows _) fun t => .bind (draw_allows _) fun t' => ?_
  refine .bind (modifyTree_beside _) fun _ => .ite (.pure _) (.bind (modifyTree_beside _) fun _ => ?_)
  split
  · exact .pure _
  · exact modifyTree_beside _

theorem updateTree_beside (ann : Announce) : R.Allows (updateTree ann) :=
  .gets_bind fun _ => .bind (draw_allows _) fun _ => .bind (modifyTree_beside _) fun _ => .pure _

theorem handleAnnounce_beside (src : Key) (ann : Announce) : R.Allows (handleAnnounce src ann) := by
  refine .gets_bind fun r => .bind (updateTree_beside _) fun adopted => ?_
  refine .ite (.bind (modifyTree_beside _) fun _ => ?_) ?_
  all_goals
    refine .bind (modifyTree_beside _) fun _ => .ite (.pure _) ?_
    split
    · exact .ite (.pure _) (.pure _)
    · exact .pure _

theorem becomeRoot_beside : R.Allows becomeRoot :=
  .bind newReq_beside fun _ => .gets_bind fun _ => .bind (updateTree_beside _) fun _ =>
    .bind (draw_allows _) fun _ => modifyTree_beside _

theorem settle_beside : R.Allows settle :=
  .bind (modifyTree_beside _) fun _ => .bind (modifyTree_beside _) fun _ =>
    .gets_bind fun _ => .forEach fun k _ => sendReq_beside k

theorem rootOrWait_beside : R.Allows rootOrWait :=
  .gets_bind fun _ => .ite (.bind becomeRoot_beside fun _ => settle_beside)
    (.ite (modifyTree_beside _) (.pure _))

theorem fix_beside : R.Allows fix := by
  refine .gets_bind fun r => .gets_bind fun ls => .ite ?_ (.pure _)
  split
  · refine .ite (.bind (.gets_bind fun _ => .ite (updateTree_beside _) (.pure _)) fun used => ?_)
      rootOrWait_beside
    exact .ite settle_beside rootOrWait_beside
  · exact rootOrWait_beside

theorem expireTree_beside : R.Allows expireTree :=
  .bind (draw_allows _) fun _ => modifyTree_beside _

theorem sendAnnounces_beside : R.Allows sendAnnounces := by
  refine .gets_bind fun r => .forEach fun peer _ => .gets_bind fun r' =>
    .bind (modifyTree_beside _) fun _ => .forEach fun k _ => .gets_bind fun _ => ?_
  split
  · exact .pure _
  · exact .gets_bind fun _ => .ite (writeAll_allows (records_beside (by decide)) _ _) (.pure _)

/-! ## The bloom table -/

theorem bloomMaintenance_beside : R.Allows bloomMaintenance := by
  refine .bind (.modify fun w hw => Beside.bloom w _ hw) fun _ => .gets_bind fun _ =>
    .bind (draw_allows _) fun _ => .forEach fun k _ => .gets_bind fun r => .ite (.pure _) ?_
  refine .bind (modifyBloom_beside _) fun _ => .bind (lift_beside _) fun bytes => ?_
  exact .gets_bind fun _ => .ite (.pure _) (writeAll_allows (records_beside (by decide)) _ _)

theorem bloomHandle_beside (src : Key) (payload : Bytes) : R.Allows (bloomHandle src payload) := by
  refine .bind (ifOk_beside _) fun b => ?_
  split
  · exact .pure _
  · exact modifyBloom_beside _

theorem multicast_beside {ftype : FrameType} (hrec : Records R ftype) (srcKey toKey : Key)
    (payload : Bytes) : R.Allows (multicast srcKey toKey ftype payload) := by
  refine .gets_bind fun r => .forEach fun k _ => .gets_bind fun r' => .ite (.pure _) ?_
  refine .bind (.gets_bind fun _ => .gets_bind fun _ => .bind (lift_beside _) fun states => ?_)
    fun best => ?_
  · split
    · exact .pure _
    · exact .pure _
  · split
    · exact .pure _
    · exact writeVia_allows hrec _ _

/-! ## Frames -/

theorem encryptInit_beside (init : SessionInit) (msgType : UInt8) (dest : Key) :
    R.Allows (encryptInit init msgType dest) := by
  refine .gets_bind fun r => .bind (draw_allows _) fun eph => ?_
  split
  · exact .pure _
  · exact exit_beside _

/-- A frame, if the rules allow what is done with lookups, notifies, reports and traffic. -/
theorem handleFrame_beside (conn : LinkId) (connPeer : Key) (payload : Bytes) {ftype : FrameType}
    (hlookup : ∀ lookup, R.Allows (handleLookup netSend connPeer lookup))
    (hnotify : ∀ notify, R.Allows (handleNotify netSend notify))
    (hbroken : ∀ broken, R.Allows (handleBroken netSend broken))
    (htraffic : ftype = .traffic → ∀ tr, R.Allows (handleInboundTraffic tr)) :
    R.Allows (handleFrame conn connPeer payload ftype) := by
  cases ftype with
  | keepAlive | dummy => exact .pure _
  | sigReq =>
    refine .bind (ifOk_beside _) fun req => ?_
    split
    · exact handleRequest_beside _ _ _
    · exact .pure _
  | sigRes =>
    refine .bind (ifOk_beside _) fun res => .gets_bind fun r => ?_
    split
    · exact .ite (handleResponse_beside _ _ _) (.pure _)
    · exact .pure _
  | announce =>
    refine .bind (ifOk_beside _) fun ann => ?_
    split
    · exact .pure _
    · refine .ite (.bind (handleAnnounce_beside _ _) fun reply => ?_) (.pure _)
      split
      · exact write_allows (records_beside (by decide)) _ _
      · exact .pure _
  | bloomFilter => exact bloomHandle_beside _ _
  | pathLookup =>
    refine .bind (ifOk_beside _) fun lookup => ?_
    split
    · exact hlookup _
    · exact .pure _
  | pathNotify =>
    refine .bind (ifOk_beside _) fun notify => ?_
    split
    · exact .ite (hnotify _) (.pure _)
    · exact .pure _
  | pathBroken =>
    refine .bind (ifOk_beside _) fun broken => ?_
    split
    · exact hbroken _
    · exact .pure _
  | traffic =>
    refine .bind (ifOk_beside _) fun tr => ?_
    split
    · exact htraffic rfl _
    · exact .pure _

end

end Roots
