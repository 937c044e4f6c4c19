import Roots.Lib.Delimit
import Roots.Session.Basic
import Roots.Wire.RoundTrip

/-!
# Roots.Wire.Signed

What is signed says what was meant. A response, a notify and an init are signed as the bytes of
their fields, written one after the other without tags. **No two different values are signed as
the same bytes** (`signed_bytes_unambiguous`), because every field shows where it ends: the keys
and the numbers of an init by their length, the other numbers by their last byte. A path goes to
the end of the bytes, and is known even if it has a zero of its own.
-/

namespace Roots

open Wire

theorem uvarint_delimits : Delimits uvarint := .of_read readUvarint readUvarint_uvarint

theorem key_delimits : Delimits fun k : Key => k.toList :=
  .of_length List.Vector.toList_length fun _ _ => List.Vector.eq _ _

theorem toBeBytes_delimits : Delimits toBeBytes := .of_length toBeBytes_length toBeBytes_injective

/-- A path is the numbers of its ports and a zero, up to the end. -/
theorem appendPath_injective : Function.Injective appendPath := by
  have happend : ∀ path, appendPath path = (path ++ [0]).flatMap uvarint := by
    intro path
    rw [appendPath, List.flatMap_append, List.flatMap_singleton]
  intro path path' h
  rw [happend, happend] at h
  have hne : ∀ v, uvarint v ≠ [] := uvarintLoop_ne_nil 9
  exact List.append_left_injective [0] (uvarint_delimits.flatMap_injective hne h)

theorem SigRes.bytesForSig_inj {res res' : SigRes} {node parent node' parent' : Key} :
    res.bytesForSig node parent = res'.bytesForSig node' parent' ↔
      node = node' ∧ parent = parent' ∧ res.req.seq = res'.req.seq ∧
        res.req.nonce = res'.req.nonce ∧ res.port = res'.port := by
  simp only [bytesForSig, sigBytes, SigReq.bytesForSig, SigReq.encode, List.append_assoc]
  constructor
  · intro h
    obtain ⟨hnode, h⟩ := key_delimits h
    obtain ⟨hparent, h⟩ := key_delimits h
    obtain ⟨hseq, h⟩ := uvarint_delimits h
    obtain ⟨hnonce, h⟩ := uvarint_delimits h
    exact ⟨hnode, hparent, hseq, hnonce, uvarint_delimits.injective h⟩
  · rintro ⟨hnode, hparent, hseq, hnonce, hport⟩
    rw [hnode, hparent, hseq, hnonce, hport]

theorem NotifyInfo.bytesForSig_inj {info info' : NotifyInfo} :
    info.bytesForSig = info'.bytesForSig ↔ info.seq = info'.seq ∧ info.path = info'.path := by
  simp only [bytesForSig, sigBytes]
  constructor
  · intro h
    obtain ⟨hseq, hpath⟩ := uvarint_delimits h
    exact ⟨hseq, appendPath_injective hpath⟩
  · rintro ⟨hseq, hpath⟩
    rw [hseq, hpath]

theorem SessionInit.sigBytes_inj {init init' : SessionInit} {ephPub ephPub' : Key} :
    init.sigBytes ephPub = init'.sigBytes ephPub' ↔
      ephPub = ephPub' ∧ init.current = init'.current ∧ init.next = init'.next ∧
        init.keySeq = init'.keySeq ∧ init.seq = init'.seq := by
  simp only [sigBytes, fieldBytes, List.append_assoc]
  constructor
  · intro h
    obtain ⟨heph, h⟩ := key_delimits h
    obtain ⟨hcurrent, h⟩ := key_delimits h
    obtain ⟨hnext, h⟩ := key_delimits h
    obtain ⟨hkeySeq, h⟩ := toBeBytes_delimits h
    exact ⟨heph, hcurrent, hnext, hkeySeq, toBeBytes_injective h⟩
  · rintro ⟨heph, hcurrent, hnext, hkeySeq, hseq⟩
    rw [heph, hcurrent, hnext, hkeySeq, hseq]

/-- **Equal signed bytes have equal fields**, for responses, for the infos of notifies and for
inits. -/
theorem signed_bytes_unambiguous :
    (∀ (res res' : SigRes) (node parent node' parent' : Key),
      res.bytesForSig node parent = res'.bytesForSig node' parent' ↔
        node = node' ∧ parent = parent' ∧ res.req.seq = res'.req.seq ∧
          res.req.nonce = res'.req.nonce ∧ res.port = res'.port) ∧
    (∀ info info' : NotifyInfo,
      info.bytesForSig = info'.bytesForSig ↔ info.seq = info'.seq ∧ info.path = info'.path) ∧
    ∀ (init init' : SessionInit) (ephPub ephPub' : Key),
      init.sigBytes ephPub = init'.sigBytes ephPub' ↔
        ephPub = ephPub' ∧ init.current = init'.current ∧ init.next = init'.next ∧
          init.keySeq = init'.keySeq ∧ init.seq = init'.seq := by
  refine ⟨?_, ?_, ?_⟩
  · intro res res' node parent node' parent'
    exact SigRes.bytesForSig_inj
  · intro info info'
    exact NotifyInfo.bytesForSig_inj
  · intro init init' ephPub ephPub'
    exact SessionInit.sigBytes_inj

end Roots
