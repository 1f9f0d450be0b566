import Cassetta.Guarantee.TwoPhase

/-!
# Sending on what was picked

The entries of an inline envelope are read back by the decoder of the inline send. Bytes that
are text stand for themselves there, and all others come back through base64, so that what was
picked can be sent on as it is.
-/

namespace Cassetta

open Prog

/-- `data.decode("ascii")`. -/
def asciiText (data : Bytes) : String := String.ofList (data.map fun b => Char.ofNat b.toNat)

/-- An entry of an inline envelope, as a file of an inline send. -/
def InlineContent.resent (name : String) : InlineContent → SendInlineFile
  | .utf8 text => ⟨name, text, .utf8⟩
  | .base64 text => ⟨name, asciiText text, .base64⟩

/-- The entries of an envelope, as the files of an inline send. -/
def Envelope.resent : Envelope → List SendInlineFile
  | .inline _ files => files.map fun e => e.2.resent e.1
  | .reference _ => []

/-! ## One entry -/

/-- ASCII is encoded as it was decoded. -/
theorem utf8_asciiText {data : Bytes} (h : ∀ b ∈ data, b.toNat < 128) :
    Percent.utf8 (asciiText data) = data := by
  induction data with
  | nil => rfl
  | cons b data ih =>
    rw [List.forall_mem_cons] at h
    have hchar := Percent.toNat_ofNat_byte b
    have hlt : (Char.ofNat b.toNat).toNat < 128 := by
      rw [hchar]
      exact h.1
    have hb : String.utf8EncodeChar (Char.ofNat b.toNat) = [b] := by
      rw [Percent.utf8EncodeChar_ascii hlt, hchar, UInt8.ofNat_toNat]
    have hstep : Percent.utf8 (asciiText (b :: data)) =
        String.utf8EncodeChar (Char.ofNat b.toNat) ++ Percent.utf8 (asciiText data) := by
      simp [Percent.utf8, asciiText]
    rw [hstep, hb, ih h.2]
    rfl

/-- Base64 is ASCII. -/
theorem ascii_encode (data : Bytes) : ∀ b ∈ Base64.encode data, b.toNat < 128 := by
  have hsymbol : ∀ n < 64, (Base64.symbol n).toNat < 128 := by decide
  have hpad : Base64.pad.toNat < 128 := by decide
  fun_induction Base64.encode data with
  | case1 => rintro _ ⟨⟩
  | case2 a =>
    have ha := a.toNat_lt
    simp only [List.forall_mem_cons]
    exact ⟨hsymbol _ (by omega), hsymbol _ (by omega), hpad, hpad, by rintro _ ⟨⟩⟩
  | case3 a b =>
    have ha := a.toNat_lt
    have hb := b.toNat_lt
    simp only [List.forall_mem_cons]
    exact ⟨hsymbol _ (by omega), hsymbol _ (by omega), hsymbol _ (by omega), hpad,
      by rintro _ ⟨⟩⟩
  | case4 a b c rest ih =>
    have ha := a.toNat_lt
    have hb := b.toNat_lt
    have hc := c.toNat_lt
    simp only [List.forall_mem_cons]
    exact ⟨hsymbol _ (by omega), hsymbol _ (by omega), hsymbol _ (by omega),
      hsymbol _ (by omega), ih⟩

/-- Whatever encoding the envelope chooses, the entry decodes to its bytes. -/
theorem decodeInlineContent_resent (m : BundleMeta) (payloads : List (String × Bytes)) :
    ((buildInlineEnvelope m payloads).resent.map fun x =>
        (x.name, decodeInlineContent x.content x.encoding)) =
      payloads.map fun p => (p.1, some p.2) := by
  rw [buildInlineEnvelope, Envelope.resent, List.map_map, List.map_map]
  refine List.map_congr_left fun p _ => ?_
  dsimp only [Function.comp]
  cases htext : String.fromUTF8? p.2.toByteArray with
  | some text =>
    change (p.1, some (Percent.utf8 text)) = _
    rw [Percent.utf8_of_fromUTF8 htext]
  | none =>
    change (p.1, Base64.decode (Percent.utf8 (asciiText (Base64.encode p.2)))) = _
    rw [utf8_asciiText (ascii_encode p.2), Base64.decode_encode]

/-! ## The send -/

/-- The decoder of an inline send takes entries that the manifest lists with their lengths, and
keeps the latest first. -/
theorem decodeInlineFiles_listed {manifest : List FileRecord} {sent : List SendInlineFile}
    {payloads : List (String × Bytes)} (done : List (String × Bytes))
    (hsent : (sent.map fun x => (x.name, decodeInlineContent x.content x.encoding)) =
      payloads.map fun p => (p.1, some p.2))
    (hlisted : ∀ p ∈ payloads, ∃ f, Upload.byName manifest p.1 = some f ∧
      (p.2.length : Int) = f.size) :
    decodeInlineFiles manifest done sent = .ok (payloads.reverse ++ done) := by
  induction sent generalizing done payloads with
  | nil =>
    have hnil : payloads = [] := by simpa using hsent.symm
    subst hnil
    rfl
  | cons x rest ih =>
    cases payloads with
    | nil => cases hsent
    | cons p payloads =>
      rw [List.map_cons, List.map_cons, List.cons.injEq, Prod.mk.injEq] at hsent
      obtain ⟨⟨hname, hdecode⟩, hrest⟩ := hsent
      rw [List.forall_mem_cons] at hlisted
      obtain ⟨⟨f, hf, hlen⟩, hlisted⟩ := hlisted
      rw [← hname] at hf
      rw [decodeInlineFiles]
      simp only [hf, hdecode, hlen, ne_eq, not_true_eq_false, if_false]
      rw [ih _ hrest hlisted, hname]
      simp

/-- The entries of an inline envelope decode to the bytes they were built from, in their order,
an inline send whose manifest lists them takes them as these bytes, and what an entry of any
kind decodes to goes through an envelope unchanged. -/
theorem inlineContent_roundTrip (m : BundleMeta) (payloads : List (String × Bytes)) :
    ((buildInlineEnvelope m payloads).resent.map fun x =>
        (x.name, decodeInlineContent x.content x.encoding)) =
      payloads.map (fun p => (p.1, some p.2)) ∧
    (∀ manifest : List FileRecord, (∀ p ∈ payloads, ∃ f, Upload.byName manifest p.1 = some f ∧
        (p.2.length : Int) = f.size) →
      decodeInlineFiles manifest [] (buildInlineEnvelope m payloads).resent =
        .ok payloads.reverse) ∧
    ∀ name content encoding data, decodeInlineContent content encoding = some data →
      ((buildInlineEnvelope m [(name, data)]).resent.map fun x =>
        decodeInlineContent x.content x.encoding) =
          [decodeInlineContent content encoding] := by
  refine ⟨decodeInlineContent_resent m payloads, fun manifest hlisted => ?_, ?_⟩
  · rw [decodeInlineFiles_listed [] (decodeInlineContent_resent m payloads) hlisted,
      List.append_nil]
  · intro name content encoding data hdata
    have hsingle := congrArg (List.map Prod.snd) (decodeInlineContent_resent m [(name, data)])
    rw [List.map_map] at hsingle
    rw [hdata]
    exact hsingle

end Cassetta
