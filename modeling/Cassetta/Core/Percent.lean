import Mathlib

/-!
# Percent-encoding

`urllib.parse.quote` with no safe characters, and `urllib.parse.unquote`. Quoting works on
the UTF-8 bytes of a string and leaves only unreserved ASCII. Unquoting decodes each run of
ASCII on its own; bytes that are no UTF-8 become replacement characters, one for each maximal
part of a sequence.
-/

namespace Percent

/-- `s.encode("utf-8")`. -/
def utf8 (s : String) : List UInt8 := s.toList.flatMap String.utf8EncodeChar

/-- `_ALWAYS_SAFE`. -/
def alwaysSafe (b : UInt8) : Bool :=
  (97 ≤ b ∧ b ≤ 122) || (65 ≤ b ∧ b ≤ 90) || (48 ≤ b ∧ b ≤ 57) ||
    b = 95 || b = 46 || b = 45 || b = 126

/-- An upper-case hexadecimal digit. -/
def hexDigit (n : Nat) : Char := if n < 10 then Char.ofNat (48 + n) else Char.ofNat (55 + n)

/-- The value of a hexadecimal digit of either case. -/
def hexValue (c : Char) : Option Nat :=
  if '0' ≤ c ∧ c ≤ '9' then some (c.toNat - 48)
  else if 'A' ≤ c ∧ c ≤ 'F' then some (c.toNat - 55)
  else if 'a' ≤ c ∧ c ≤ 'f' then some (c.toNat - 87)
  else none

def quoteByte (b : UInt8) : List Char :=
  if alwaysSafe b then [Char.ofNat b.toNat] else
    ['%', hexDigit (b.toNat / 16), hexDigit (b.toNat % 16)]

/-- `urllib.parse.quote(s, safe="")`. -/
def quote (s : String) : String := String.ofList ((utf8 s).flatMap quoteByte)

/-- `unquote_to_bytes` on ASCII text. -/
def unquoteToBytes : List Char → List UInt8
  | [] => []
  | '%' :: a :: b :: rest =>
    match hexValue a, hexValue b with
    | some x, some y => UInt8.ofNat (16 * x + y) :: unquoteToBytes rest
    | _, _ => 37 :: unquoteToBytes (a :: b :: rest)
  | c :: rest => UInt8.ofNat c.toNat :: unquoteToBytes rest

/-- How many bytes a sequence that starts with this byte has after it. -/
def moreBytes (lead : UInt8) : Nat :=
  if 0xC2 ≤ lead ∧ lead ≤ 0xDF then 1
  else if 0xE0 ≤ lead ∧ lead ≤ 0xEF then 2
  else if 0xF0 ≤ lead ∧ lead ≤ 0xF4 then 3
  else 0

/-- Whether a byte may follow a leading byte. -/
def follows (lead second : UInt8) : Bool :=
  let low : UInt8 := if lead = 0xE0 then 0xA0 else if lead = 0xF0 then 0x90 else 0x80
  let high : UInt8 := if lead = 0xED then 0x9F else if lead = 0xF4 then 0x8F else 0xBF
  low ≤ second ∧ second ≤ high

/-- The bytes after the first of the longest part that begins some sequence. -/
def subpartTail (lead : UInt8) : List UInt8 → Nat
  | [] => 0
  | second :: rest =>
    if moreBytes lead = 0 ∨ ¬follows lead second then 0
    else 1 + ((rest.take (moreBytes lead - 1)).takeWhile (fun b => 0x80 ≤ b ∧ b ≤ 0xBF)).length

/-- `bytes.decode("utf-8", "replace")`; the fuel is the number of bytes. -/
def decodeReplace : Nat → List UInt8 → List Char
  | 0, _ => []
  | _, [] => []
  | fuel + 1, b :: rest =>
    match (b :: rest).toByteArray.utf8DecodeChar? 0 with
    | some c => c :: decodeReplace fuel ((b :: rest).drop c.utf8Size)
    | none => Char.ofNat 0xFFFD :: decodeReplace fuel (rest.drop (subpartTail b rest))

/-- Decode one run of ASCII. -/
def unquoteRun (run : List Char) : List Char :=
  let bytes := unquoteToBytes run
  decodeReplace bytes.length bytes

/-- The scan of a string, with the run of ASCII read so far in reverse. -/
def unquoteRuns : List Char → List Char → List Char
  | run, [] => unquoteRun run.reverse
  | run, c :: rest =>
    if c.toNat < 128 then unquoteRuns (c :: run) rest
    else unquoteRun run.reverse ++ c :: unquoteRuns [] rest

/-- `urllib.parse.unquote`. -/
def unquote (s : String) : String := String.ofList (unquoteRuns [] s.toList)

/-! ## Round trip -/

private theorem hexValue_hexDigit : ∀ n < 16, hexValue (hexDigit n) = some n := by decide

/-- What holds of the first 256 numbers holds of every byte. -/
theorem forall_byte {P : UInt8 → Prop} (h : ∀ n < 256, P (UInt8.ofNat n)) (b : UInt8) : P b := by
  simpa using h b.toNat b.toNat_lt

private theorem alwaysSafe_ne_percent (b : UInt8) :
    alwaysSafe b = true → Char.ofNat b.toNat ≠ '%' :=
  forall_byte (P := fun b => alwaysSafe b = true → Char.ofNat b.toNat ≠ '%') (by decide +kernel) b

/-- A byte is the code of a character. -/
theorem toNat_ofNat_byte (b : UInt8) : (Char.ofNat b.toNat).toNat = b.toNat :=
  forall_byte (P := fun b => (Char.ofNat b.toNat).toNat = b.toNat) (by decide +kernel) b

private theorem unquoteToBytes_cons {c : Char} (hc : c ≠ '%') (rest : List Char) :
    unquoteToBytes (c :: rest) = UInt8.ofNat c.toNat :: unquoteToBytes rest := by
  rw [unquoteToBytes]
  rintro a b tail hpercent
  exact absurd hpercent hc

/-- A quoted byte is read back, whatever follows. -/
theorem unquoteToBytes_quoteByte (b : UInt8) (rest : List Char) :
    unquoteToBytes (quoteByte b ++ rest) = b :: unquoteToBytes rest := by
  have hb := b.toNat_lt
  unfold quoteByte
  split
  · rename_i hs
    have hne := alwaysSafe_ne_percent b hs
    rw [List.singleton_append, unquoteToBytes_cons hne, toNat_ofNat_byte, UInt8.ofNat_toNat]
  · have hx := hexValue_hexDigit (b.toNat / 16) (by omega)
    have hy := hexValue_hexDigit (b.toNat % 16) (by omega)
    have hval : 16 * (b.toNat / 16) + b.toNat % 16 = b.toNat := Nat.div_add_mod _ _
    simp only [List.cons_append, List.nil_append, unquoteToBytes, hx, hy, hval, UInt8.ofNat_toNat]

private theorem unquoteToBytes_quoteBytes (bytes : List UInt8) (rest : List Char) :
    unquoteToBytes (bytes.flatMap quoteByte ++ rest) = bytes ++ unquoteToBytes rest := by
  induction bytes with
  | nil => rfl
  | cons b bytes ih =>
    rw [List.flatMap_cons, List.append_assoc, unquoteToBytes_quoteByte, ih, List.cons_append]

/-- Encoded text is read back character by character. -/
theorem decodeReplace_utf8 (cs : List Char) (fuel : Nat)
    (hf : (cs.flatMap String.utf8EncodeChar).length ≤ fuel) :
    decodeReplace fuel (cs.flatMap String.utf8EncodeChar) = cs := by
  induction cs generalizing fuel with
  | nil => cases fuel <;> rfl
  | cons c cs ih =>
    have hlen := String.length_utf8EncodeChar c
    have hpos := c.utf8Size_pos
    rw [List.flatMap_cons, List.length_append, hlen] at hf
    obtain ⟨fuel, rfl⟩ : ∃ k, fuel = k + 1 := ⟨fuel - 1, by omega⟩
    obtain ⟨b, tail, hbt⟩ : ∃ b tail, String.utf8EncodeChar c = b :: tail :=
      List.exists_cons_of_length_pos (by omega)
    have hdec : (b :: (tail ++ cs.flatMap String.utf8EncodeChar)).toByteArray.utf8DecodeChar? 0 =
        some c := by
      rw [← List.cons_append, ← hbt, List.toByteArray_append]
      exact ByteArray.utf8DecodeChar?_utf8EncodeChar_append
    rw [List.flatMap_cons, hbt, List.cons_append, decodeReplace, hdec]
    simp only [List.cons.injEq, true_and]
    rw [← List.cons_append, ← hbt, ← hlen, List.drop_left]
    exact ih fuel (by omega)

private theorem quoteByte_ascii (b : UInt8) :
    ∀ c ∈ quoteByte b, c.toNat < 128 ∧ c ≠ '/' ∧ c ≠ '?' ∧ c ≠ '#' := by
  have hall : ((quoteByte b).all fun c => c.toNat < 128 && c != '/' && c != '?' && c != '#') =
      true :=
    forall_byte (P := fun b => ((quoteByte b).all fun c =>
      c.toNat < 128 && c != '/' && c != '?' && c != '#') = true) (by decide +kernel) b
  intro c hc
  have h := List.all_eq_true.mp hall c hc
  simpa [and_assoc] using h

private theorem unquoteRuns_ascii (cs run : List Char) (h : ∀ c ∈ cs, c.toNat < 128) :
    unquoteRuns run cs = unquoteRun (run.reverse ++ cs) := by
  induction cs generalizing run with
  | nil => simp [unquoteRuns]
  | cons c cs ih =>
    rw [unquoteRuns, if_pos (h c (by simp)), ih _ (fun d hd => h d (by simp [hd]))]
    simp

/-- What quoting leaves: no separator, no query, no fragment, only ASCII. -/
theorem mem_quote {s : String} {c : Char} (h : c ∈ (quote s).toList) :
    c.toNat < 128 ∧ c ≠ '/' ∧ c ≠ '?' ∧ c ≠ '#' := by
  rw [quote, String.toList_ofList] at h
  obtain ⟨b, -, hc⟩ := List.mem_flatMap.mp h
  exact quoteByte_ascii b c hc

/-- A text that was decoded strictly encodes to the bytes it was read from. -/
theorem utf8_of_fromUTF8 {data : List UInt8} {text : String}
    (h : String.fromUTF8? data.toByteArray = some text) : utf8 text = data := by
  unfold String.fromUTF8? at h
  split at h
  · rename_i hvalid
    obtain rfl := Option.some.inj h
    have hbytes : (String.fromUTF8 data.toByteArray hvalid).toList.utf8Encode =
        data.toByteArray := String.utf8Encode_toList
    have hlist := congrArg (fun bytes => bytes.data.toList) hbytes
    simpa [List.utf8Encode, utf8] using hlist
  · cases h

/-- The encoding of a text decodes to it. -/
theorem fromUTF8_utf8 (s : String) : String.fromUTF8? (utf8 s).toByteArray = some s := by
  have hbytes : (utf8 s).toByteArray = s.toByteArray := by
    rw [← String.utf8Encode_toList, utf8, List.utf8Encode]
  rw [hbytes, String.fromUTF8?, dif_pos s.isValidUTF8]
  rfl

/-! ## Escapes -/

/-- A text starts with two hexadecimal digits. -/
def twoDigits : List Char → Bool
  | a :: b :: _ => (hexValue a).isSome && (hexValue b).isSome
  | _ => false

/-- A text has an escape in it: a percent sign with two hexadecimal digits after it. -/
def hasEscape : List Char → Bool
  | [] => false
  | c :: rest => (c = '%' && twoDigits rest) || hasEscape rest

/-- A percent sign without two digits after it is no escape. -/
theorem hasEscape_percent {a b : Char} {rest : List Char}
    (h : ∀ x y, hexValue a = some x → hexValue b = some y → False) :
    hasEscape ('%' :: a :: b :: rest) = hasEscape (a :: b :: rest) := by
  have hno : twoDigits (a :: b :: rest) = false := by
    rw [twoDigits, Bool.and_eq_false_iff, Option.isSome_eq_false_iff, Option.isSome_eq_false_iff]
    cases ha : hexValue a with
    | none => exact .inl rfl
    | some x =>
      cases hb : hexValue b with
      | none => exact .inr rfl
      | some y => exact (h x y ha hb).elim
  rw [hasEscape, hno]
  simp

/-- Nor is what does not start with a percent sign that has two characters after it. -/
theorem hasEscape_other {c : Char} {rest : List Char}
    (h : ∀ a b tail, c = '%' → rest = a :: b :: tail → False) :
    hasEscape (c :: rest) = hasEscape rest := by
  rw [hasEscape]
  match rest, h with
  | [], _ => simp [twoDigits]
  | [a], _ => simp [twoDigits]
  | a :: b :: tail, h =>
    have hc : c ≠ '%' := fun hc => h a b tail hc rfl
    simp [hc]

/-- Unquoting to bytes gives at most one byte a character, and fewer where something is
escaped. -/
theorem length_unquoteToBytes (cs : List Char) :
    (unquoteToBytes cs).length ≤ cs.length ∧
      (hasEscape cs = true → (unquoteToBytes cs).length < cs.length) := by
  fun_induction unquoteToBytes cs with
  | case1 => exact ⟨le_rfl, nofun⟩
  | case2 a b rest x y hy hx ih =>
    simp only [List.length_cons]
    exact ⟨by omega, fun _ => by omega⟩
  | case3 a b rest hno ih =>
    rw [hasEscape_percent hno, List.length_cons, List.length_cons]
    exact ⟨by omega, fun h => by have := ih.2 h; omega⟩
  | case4 c rest hc ih =>
    rw [hasEscape_other hc, List.length_cons, List.length_cons]
    exact ⟨by omega, fun h => by have := ih.2 h; omega⟩

/-- Without an escape, a text unquotes to its own characters. -/
theorem unquoteToBytes_plain {cs : List Char} (h : hasEscape cs = false) :
    unquoteToBytes cs = cs.map fun c => UInt8.ofNat c.toNat := by
  fun_induction unquoteToBytes cs with
  | case1 => rfl
  | case2 a b rest x y hy hx ih => simp [hasEscape, twoDigits, hx, hy] at h
  | case3 a b rest hno ih =>
    rw [hasEscape_percent hno] at h
    rw [ih h]
    rfl
  | case4 c rest hc ih =>
    rw [hasEscape_other hc] at h
    rw [ih h]
    rfl

private theorem length_decodeReplace (fuel : Nat) (bytes : List UInt8) :
    (decodeReplace fuel bytes).length ≤ bytes.length := by
  fun_induction decodeReplace fuel bytes with
  | case1 => simp
  | case2 => simp
  | case3 fuel b rest c hc ih =>
    have hpos := c.utf8Size_pos
    rw [List.length_drop, List.length_cons] at ih
    rw [List.length_cons, List.length_cons]
    omega
  | case4 fuel b rest hc ih =>
    rw [List.length_drop] at ih
    rw [List.length_cons, List.length_cons]
    omega

private theorem length_unquoteRun (run : List Char) :
    (unquoteRun run).length ≤ run.length ∧
      (hasEscape run = true → (unquoteRun run).length < run.length) := by
  have hdecode := length_decodeReplace (unquoteToBytes run).length (unquoteToBytes run)
  have hbytes := length_unquoteToBytes run
  unfold unquoteRun
  exact ⟨le_trans hdecode hbytes.1, fun h => lt_of_le_of_lt hdecode (hbytes.2 h)⟩

/-- ASCII is encoded as itself. -/
theorem utf8EncodeChar_ascii {c : Char} (hc : c.toNat < 128) :
    String.utf8EncodeChar c = [UInt8.ofNat c.toNat] := by
  have hle : c.val.toNat ≤ 127 := Nat.le_of_lt_succ hc
  simp only [String.utf8EncodeChar, if_pos hle]
  rfl

/-- A run of ASCII without an escape is left as it is. -/
theorem unquoteRun_plain {run : List Char} (hascii : ∀ c ∈ run, c.toNat < 128)
    (h : hasEscape run = false) : unquoteRun run = run := by
  have hbytes : unquoteToBytes run = run.flatMap String.utf8EncodeChar := by
    rw [unquoteToBytes_plain h, List.map_eq_flatMap]
    exact List.flatMap_congr fun c hc => (utf8EncodeChar_ascii (hascii c hc)).symm
  rw [unquoteRun, hbytes]
  exact decodeReplace_utf8 _ _ le_rfl

/-- A character that is not ASCII is no digit and no percent sign. -/
theorem hexValue_eq_none {c : Char} (hc : ¬c.toNat < 128) : hexValue c = none ∧ c ≠ '%' := by
  have hgt : ∀ d : Char, d.toNat < 128 → ¬c ≤ d := by
    intro d hd hle
    have hnat : c.toNat ≤ d.toNat := hle
    omega
  have h9 := hgt '9' (by decide)
  have hF := hgt 'F' (by decide)
  have hf := hgt 'f' (by decide)
  refine ⟨by simp [hexValue, h9, hF, hf], ?_⟩
  rintro rfl
  exact hc (by decide)

private theorem twoDigits_append_cons (l r : List Char) {c : Char} (hdigit : hexValue c = none) :
    twoDigits (l ++ c :: r) = twoDigits l := by
  match l with
  | [] => cases r <;> simp [twoDigits, hdigit]
  | [a] => simp [twoDigits, hdigit]
  | a :: b :: tail => rfl

/-- Such a character is in no escape. -/
theorem hasEscape_append_cons (l r : List Char) {c : Char} (hdigit : hexValue c = none)
    (hpercent : c ≠ '%') : hasEscape (l ++ c :: r) = (hasEscape l || hasEscape r) := by
  induction l with
  | nil => simp [hasEscape, hpercent]
  | cons a l ih =>
    rw [List.cons_append, hasEscape, hasEscape, twoDigits_append_cons l r hdigit, ih, Bool.or_assoc]

private theorem length_unquoteRuns (run cs : List Char) :
    (unquoteRuns run cs).length ≤ (run.reverse ++ cs).length ∧
      (hasEscape (run.reverse ++ cs) = true →
        (unquoteRuns run cs).length < (run.reverse ++ cs).length) := by
  fun_induction unquoteRuns run cs with
  | case1 run => simpa using length_unquoteRun run.reverse
  | case2 run c rest hc ih => simpa using ih
  | case3 run c rest hc ih =>
    have hrun := length_unquoteRun run.reverse
    obtain ⟨hdigit, hpercent⟩ := hexValue_eq_none hc
    rw [hasEscape_append_cons _ _ hdigit hpercent, Bool.or_eq_true]
    simp only [List.reverse_nil, List.nil_append] at ih
    simp only [List.length_append, List.length_cons] at ih hrun ⊢
    refine ⟨by omega, ?_⟩
    rintro (h | h)
    · have := hrun.2 h
      omega
    · have := ih.2 h
      omega

private theorem unquoteRuns_plain (run cs : List Char) (hascii : ∀ c ∈ run, c.toNat < 128)
    (h : hasEscape (run.reverse ++ cs) = false) : unquoteRuns run cs = run.reverse ++ cs := by
  fun_induction unquoteRuns run cs with
  | case1 run =>
    rw [List.append_nil] at h ⊢
    exact unquoteRun_plain (fun c hc => hascii c (List.mem_reverse.mp hc)) h
  | case2 run c rest hc ih =>
    have hlist : (c :: run).reverse ++ rest = run.reverse ++ c :: rest := by simp
    rw [hlist] at ih
    exact ih (List.forall_mem_cons.mpr ⟨hc, hascii⟩) h
  | case3 run c rest hc ih =>
    obtain ⟨hdigit, hpercent⟩ := hexValue_eq_none hc
    rw [hasEscape_append_cons _ _ hdigit hpercent, Bool.or_eq_false_iff] at h
    rw [unquoteRun_plain (fun c hc => hascii c (List.mem_reverse.mp hc)) h.1,
      ih nofun (by simpa using h.2)]
    rfl

/-- What is unquoted has no more characters than before. -/
theorem length_unquote_le (s : String) : (unquote s).toList.length ≤ s.toList.length := by
  have hlen := (length_unquoteRuns [] s.toList).1
  simpa [unquote] using hlen

/-- Unquoting leaves exactly the texts alone that have no escape. -/
theorem unquote_eq_self_iff (s : String) : unquote s = s ↔ hasEscape s.toList = false := by
  constructor
  · intro h
    by_contra hne
    have hlen := (length_unquoteRuns [] s.toList).2 (by simpa using hne)
    have hself := congrArg (fun t => t.toList.length) h
    simp only [unquote, String.toList_ofList] at hself
    simp only [List.reverse_nil, List.nil_append] at hlen
    omega
  · intro h
    rw [unquote, unquoteRuns_plain [] s.toList nofun (by simpa using h), List.reverse_nil,
      List.nil_append, String.ofList_toList]

/-! ## Text in pieces -/

/-- A coded text is read back as a text, whatever follows. -/
structure Codes (coded text : String) : Prop where
  ascii : ∀ c ∈ coded.toList, c.toNat < 128
  bytes : ∀ rest, unquoteToBytes (coded.toList ++ rest) = utf8 text ++ unquoteToBytes rest

/-- A quoted text codes the text. -/
theorem codes_quote (s : String) : Codes (quote s) s := by
  refine ⟨fun c hc => (mem_quote hc).1, fun rest => ?_⟩
  rw [quote, String.toList_ofList]
  exact unquoteToBytes_quoteBytes (utf8 s) rest

/-- Plain ASCII codes itself. -/
theorem codes_plain {s : String} (hs : ∀ c ∈ s.toList, c.toNat < 128 ∧ c ≠ '%') : Codes s s := by
  refine ⟨fun c hc => (hs c hc).1, fun rest => ?_⟩
  rw [utf8]
  generalize s.toList = cs at hs
  induction cs with
  | nil => rfl
  | cons c cs ih =>
    rw [List.forall_mem_cons] at hs
    rw [List.cons_append, unquoteToBytes_cons hs.1.2, ih hs.2, List.flatMap_cons,
      utf8EncodeChar_ascii hs.1.1]
    rfl

/-- Codes of two texts, one after the other. -/
theorem Codes.append {coded text coded' text' : String} (h : Codes coded text)
    (h' : Codes coded' text') : Codes (coded ++ coded') (text ++ text') := by
  refine ⟨fun c hc => ?_, fun rest => ?_⟩
  · rw [String.toList_append, List.mem_append] at hc
    exact hc.elim (h.ascii c) (h'.ascii c)
  · have htext : utf8 (text ++ text') = utf8 text ++ utf8 text' := by
      rw [utf8, String.toList_append, List.flatMap_append]
      rfl
    rw [String.toList_append, List.append_assoc, h.bytes, h'.bytes, htext, List.append_assoc]

/-- Unquoting reads a coded text back. -/
theorem Codes.unquote_eq {coded text : String} (h : Codes coded text) : unquote coded = text := by
  have hbytes := h.bytes []
  rw [List.append_nil, unquoteToBytes, List.append_nil] at hbytes
  rw [unquote, unquoteRuns_ascii _ _ h.ascii, List.reverse_nil, List.nil_append, unquoteRun, hbytes,
    utf8, decodeReplace_utf8 _ _ le_rfl, String.ofList_toList]

/-- Unquoting undoes quoting. -/
theorem unquote_quote (s : String) : unquote (quote s) = s := (codes_quote s).unquote_eq

end Percent
