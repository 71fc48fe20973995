import WeirdVault.Relay.Http
import Mathlib.Data.List.TakeWhile

/-! # Chunked answers, cut anywhere -/

namespace WeirdVault.Relay.Http

open WeirdVault.Framework

/-- Where the size lines of the text lead. -/
inductive Reach : Text → Text → Prop
  | here (rest : Text) : Reach rest rest
  | next {rest rest' after : Text} {size : Nat} (h : nextChunk rest = some (size,after))
      (hreach : Reach (skipChunk after size) rest') : Reach rest rest'

/-- Every chunk that is reached ends between two characters. -/
def EndsBetween (rest : Text) : Prop :=
  ∀ rest', Reach rest rest' → ∀ size after, nextChunk rest' = some (size,after) →
    isCharBoundary after size

private theorem endsBetween_stop {rest : Text} (h : nextChunk rest = none) : EndsBetween rest := by
  intro rest' hreach size after hnext
  cases hreach with
  | here => simp [h] at hnext
  | next hfirst => simp [h] at hfirst

private theorem endsBetween_next {rest after : Text} {size : Nat}
    (h : nextChunk rest = some (size,after)) :
    EndsBetween rest ↔ isCharBoundary after size ∧ EndsBetween (skipChunk after size) := by
  constructor
  · intro hall
    refine ⟨hall rest (.here rest) size after h,?_⟩
    intro rest' hreach
    exact hall rest' (.next h hreach)
  · rintro ⟨hfirst,hrest⟩ rest' hreach size' after' hnext
    cases hreach with
    | here =>
      obtain ⟨rfl,rfl⟩ := Prod.mk.inj (Option.some.inj (h.symm.trans hnext))
      exact hfirst
    | next hstep htail =>
      obtain ⟨rfl,rfl⟩ := Prod.mk.inj (Option.some.inj (h.symm.trans hstep))
      exact hrest rest' htail size' after' hnext

theorem decodeChunks_stop {rest : Text} (h : nextChunk rest = none) (out : Text) :
    decodeChunks out rest = some out := by
  rw [decodeChunks]
  split
  · rfl
  · rename_i hsome
    simp [h] at hsome

theorem decodeChunks_next {rest after : Text} {size : Nat} (h : nextChunk rest = some (size,after))
    (out : Text) : decodeChunks out rest = (splitBytes after size).bind fun p =>
      decodeChunks (out ++ p.1) (skipChunk after size) := by
  rw [decodeChunks]
  split
  · rename_i hnone
    simp [h] at hnone
  · rename_i size' after' hsome
    obtain ⟨rfl,rfl⟩ := Prod.mk.inj (Option.some.inj (h.symm.trans hsome))
    cases splitBytes after size <;> rfl

theorem decodeChunks_isSome (out rest : Text) :
    (decodeChunks out rest).isSome ↔ EndsBetween rest := by
  induction hlen : rest.length using Nat.strong_induction_on generalizing out rest with
  | _ n ih =>
    cases hnext : nextChunk rest with
    | none =>
      rw [decodeChunks_stop hnext]
      exact iff_of_true rfl (endsBetween_stop hnext)
    | some p =>
      obtain ⟨size,after⟩ := p
      have hshorter := (length_skipChunk_le after size).trans_lt (nextChunk_shorter hnext)
      rw [decodeChunks_next hnext,endsBetween_next hnext,isCharBoundary]
      cases splitBytes after size with
      | none => simp
      | some p =>
        rw [Option.bind_some,ih _ (hlen ▸ hshorter) (out ++ p.1) (skipChunk after size) rfl]
        simp

theorem decodeChunks_extends {out rest result : Text}
    (h : decodeChunks out rest = some result) : out <+: result := by
  induction hlen : rest.length using Nat.strong_induction_on generalizing out rest with
  | _ n ih =>
    cases hnext : nextChunk rest with
    | none =>
      rw [decodeChunks_stop hnext] at h
      exact Option.some.inj h ▸ List.prefix_rfl
    | some p =>
      obtain ⟨size,after⟩ := p
      have hshorter := (length_skipChunk_le after size).trans_lt (nextChunk_shorter hnext)
      rw [decodeChunks_next hnext] at h
      obtain ⟨⟨piece,tail⟩,-,hrest⟩ := Option.bind_eq_some_iff.mp h
      have hmore := ih _ (hlen ▸ hshorter) hrest rfl
      exact (List.prefix_append out piece).trans hmore

def hex (n : Nat) : Text := numeral 16 n

def chunk (bs : List UInt8) : List UInt8 :=
  encodeText (hex bs.length ++ crlf) ++ bs ++ encodeText crlf

def lastChunk : Text := "0\r\n\r\n".toList

def response (head : List UInt8) (chunks : List (List UInt8)) : List UInt8 :=
  head ++ encodeText (crlf ++ crlf) ++ chunks.flatMap chunk ++ encodeText lastChunk

def readChunk (bs : List UInt8) : Text := hex bs.length ++ crlf ++ fromUtf8Lossy bs ++ crlf

private theorem hex_facts {n : Nat} {c : Char} (h : c ∈ hex n) :
    c ≠ '\r' ∧ c ≠ ';' ∧ c ≠ '+' ∧ isWhitespace c = false := by
  have hdigit := digit?_of_mem_numeral (by omega) (by omega) h
  have hrange := range_of_digit? hdigit
  refine ⟨?_,?_,?_,?_⟩
  · rintro rfl
    cases hdigit
  · rintro rfl
    cases hdigit
  · rintro rfl
    cases hdigit
  · simp only [isWhitespace,Bool.or_eq_false_iff,Bool.and_eq_false_iff,decide_eq_false_iff_not,
      beq_eq_false_iff_ne]
    omega

private theorem trim_eq {s : Text} (h : ∀ c ∈ s, isWhitespace c = false) : trim s = s := by
  have hdrop : ∀ t : Text, (∀ c ∈ t, isWhitespace c = false) → t.dropWhile isWhitespace = t := by
    intro t ht
    cases t with
    | nil => rfl
    | cons c t => rw [List.dropWhile_cons_of_neg (by simp [ht c (by simp)])]
  rw [trim,hdrop s h,hdrop s.reverse (fun c hc => h c (List.mem_reverse.mp hc)),List.reverse_reverse]

theorem chunkSize_hex {n : Nat} (hlt : n < 2^64) : chunkSize (hex n) = some n := by
  have htake : (hex n).takeWhile (· != ';') = hex n := by
    apply List.takeWhile_eq_self_iff.mpr
    intro c hc
    simpa using (hex_facts hc).2.1
  have hsign : stripPlus (hex n) = hex n := by
    rw [stripPlus,if_neg]
    intro hplus
    exact absurd rfl (hex_facts (List.mem_of_mem_head? hplus)).2.2.1
  rw [chunkSize,htake,trim_eq (fun c hc => (hex_facts hc).2.2.2),fromStrRadix16,hsign,hex,
    number?_numeral (by omega) (by omega)]
  simpa [Option.filter] using hlt

private theorem splitOnce_crlf {line : Text} (h : ∀ c ∈ line, c ≠ '\r') (rest : Text) :
    splitOnce crlf (line ++ crlf ++ rest) = some (line,rest) := by
  induction line with
  | nil => rfl
  | cons c line ih =>
    have hc : (crlf.isPrefixOf (c :: (line ++ crlf ++ rest))) = false := by
      have hne := h c (by simp)
      simp [crlf,List.isPrefixOf,hne.symm]
    rw [List.cons_append,List.cons_append,splitOnce,hc,ih (fun d hd => h d (by simp [hd]))]
    rfl

private theorem nextChunk_hex {n : Nat} (hpos : n ≠ 0) (hlt : n < 2^64) {after : Text}
    (hle : n ≤ byteLen after) : nextChunk (hex n ++ crlf ++ after) = some (n,after) := by
  have hsplit : splitOnce crlf (hex n ++ crlf ++ after) = some (hex n,after) :=
    splitOnce_crlf (fun c hc => (hex_facts hc).1) after
  simp only [nextChunk,Option.bind_eq_bind,hsplit,Option.bind_some,chunkSize_hex hlt]
  rw [if_neg]
  omega

private theorem nextChunk_last : nextChunk lastChunk = none := by decide

private theorem skipChunk_eq (s rest : Text) : skipChunk (s ++ crlf ++ rest) (byteLen s) = rest := by
  have hlen : byteLen s+2 = byteLen (s ++ crlf) := by
    rw [byteLen_append]
    rfl
  rw [skipChunk,hlen,splitBytes_append]
  rfl

private theorem decodeChunks_whole (out s rest : Text) (hpos : s ≠ []) (hlt : byteLen s < 2^64) :
    decodeChunks out (readChunk (encodeText s) ++ rest) = decodeChunks (out ++ s) rest := by
  have hnext : nextChunk (readChunk (encodeText s) ++ rest) =
      some (byteLen s,s ++ crlf ++ rest) := by
    rw [readChunk,fromUtf8Lossy_encodeText,length_encodeText]
    have hne : byteLen s ≠ 0 := fun h => hpos (byteLen_eq_zero.mp h)
    have hlong : byteLen s ≤ byteLen (s ++ crlf ++ rest) := by
      simp only [byteLen_append]
      omega
    simpa only [List.append_assoc] using nextChunk_hex hne hlt hlong
  rw [decodeChunks_next hnext,List.append_assoc,splitBytes_append,Option.bind_some,
    ← List.append_assoc,skipChunk_eq]

private theorem decodeChunks_cut (out s rest : Text) (c : Char) {k : Nat} (hpos : 0 < k)
    (hk : k < c.utf8Size) (hlt : byteLen s+k < 2^64) :
    ∀ result, decodeChunks out (readChunk (encodeText s ++ (TextEncoder.bytes c.toNat).take k) ++
      rest) = some result → out ++ s ++ [replacement] <+: result ∧ c.utf8Size = 4 := by
  intro result h
  have hk' : k < (TextEncoder.bytes c.toNat).length := (length_bytes c).symm ▸ hk
  have hlen : (encodeText s ++ (TextEncoder.bytes c.toNat).take k).length = byteLen s+k := by
    rw [List.length_append,length_encodeText,List.length_take]
    omega
  have hsize := c.utf8Size_le_four
  have hthree : byteLen [replacement] = 3 := by decide
  have hnext : nextChunk (readChunk (encodeText s ++ (TextEncoder.bytes c.toNat).take k) ++ rest) =
      some (byteLen s+k,s ++ ([replacement] ++ (crlf ++ rest))) := by
    rw [readChunk,fromUtf8Lossy_cut s c hpos hk',hlen]
    have hlong : byteLen s+k ≤ byteLen (s ++ ([replacement] ++ (crlf ++ rest))) := by
      simp only [byteLen_append,hthree]
      omega
    simpa only [List.append_assoc] using nextChunk_hex (by omega) hlt hlong
  rw [decodeChunks_next hnext] at h
  obtain ⟨⟨piece,tail⟩,hsplit,hrest⟩ := Option.bind_eq_some_iff.mp h
  have hboundary : isCharBoundary ([replacement] ++ (crlf ++ rest)) k = true := by
    rw [← isCharBoundary_append s,isCharBoundary,hsplit]
    rfl
  have hk3 : k = 3 := by
    by_contra hne
    obtain rfl | rfl : k = 1 ∨ k = 2 := by omega
    · cases hboundary
    · cases hboundary
  subst hk3
  refine ⟨?_,by omega⟩
  have hpiece : piece = s ++ [replacement] := by
    have hwhole := splitBytes_append (s ++ [replacement]) (crlf ++ rest)
    rw [byteLen_append,hthree,List.append_assoc,hsplit] at hwhole
    exact (Prod.mk.inj (Option.some.inj hwhole)).1
  rw [List.append_assoc,← hpiece]
  exact decodeChunks_extends hrest

/-- Where the chunks are cut, counted in bytes of the body. -/
def CutsBetween (body : Text) (chunks : List (List UInt8)) : Prop :=
  ∀ k ≤ chunks.length, isCharBoundary body (chunks.take k).flatten.length

private theorem cutsBetween_cons (s t : Text) (chunks : List (List UInt8)) :
    CutsBetween (s ++ t) (encodeText s :: chunks) ↔ CutsBetween t chunks := by
  have hcut : ∀ k, isCharBoundary (s ++ t) ((encodeText s :: chunks).take (k+1)).flatten.length =
      isCharBoundary t (chunks.take k).flatten.length := by
    intro k
    rw [List.take_succ_cons,List.flatten_cons,List.length_append,length_encodeText,
      isCharBoundary_append]
  constructor
  · intro h k hk
    rw [← hcut]
    exact h (k+1) (by simp; omega)
  · intro h k hk
    cases k with
    | zero => simp
    | succ k =>
      rw [hcut]
      exact h k (by simpa using hk)

private theorem not_cutsBetween {body : Text} {c : List UInt8} {chunks : List (List UInt8)}
    (h : isCharBoundary body c.length = false) : ¬ CutsBetween body (c :: chunks) := by
  intro hcuts
  have hone := hcuts 1 (by simp)
  simp [h] at hone

private theorem decodeChunks_framed (out body : Text) (chunks : List (List UInt8))
    (hbody : chunks.flatten = encodeText body) (hne : ∀ c ∈ chunks, c ≠ [])
    (hlt : ∀ c ∈ chunks, c.length < 2^64) :
    decodeChunks out (chunks.flatMap readChunk ++ lastChunk) = some (out ++ body) ↔
      CutsBetween body chunks := by
  induction chunks generalizing out body with
  | nil =>
    have hnil : body = [] := by
      rw [← byteLen_eq_zero,← length_encodeText,← hbody]
      rfl
    subst hnil
    rw [List.flatMap_nil,List.nil_append,decodeChunks_stop nextChunk_last,List.append_nil]
    refine iff_of_true rfl ?_
    intro k _
    simp
  | cons c chunks ih =>
    have hle : c.length ≤ byteLen body := by
      rw [← length_encodeText,← hbody,List.flatten_cons,List.length_append]
      omega
    have hshort := hlt c (by simp)
    rw [List.flatMap_cons,List.append_assoc]
    cases hcut : isCharBoundary body c.length with
    | true =>
      obtain ⟨s,t,rfl,hs⟩ := isCharBoundary_iff.mp hcut
      rw [List.flatten_cons,encodeText_append] at hbody
      obtain ⟨rfl,hrest⟩ := List.append_inj hbody (by rw [length_encodeText,hs])
      have hsne : s ≠ [] := by
        rintro rfl
        exact hne (encodeText []) (by simp) rfl
      rw [cutsBetween_cons,decodeChunks_whole out s _ hsne (by rw [hs]; exact hshort),
        ← List.append_assoc]
      exact ih (out ++ s) t hrest (fun d hd => hne d (by simp [hd]))
        (fun d hd => hlt d (by simp [hd]))
    | false =>
      obtain ⟨s,d,t,k,rfl,hpos,hk,hlen⟩ := inside_of_not_boundary hle hcut
      have hc : c = encodeText s ++ (TextEncoder.bytes d.toNat).take k := by
        have hbytes : c ++ chunks.flatten =
            encodeText s ++ (TextEncoder.bytes d.toNat ++ encodeText t) := by
          rw [← List.flatten_cons,hbody,encodeText_append]
          rfl
        have htake := congrArg (List.take c.length) hbytes
        have hk' := length_bytes d
        rw [List.take_left,hlen,← length_encodeText,List.take_length_add_append,
          List.take_append_of_le_length (by omega)] at htake
        exact htake
      refine iff_of_false ?_ (not_cutsBetween hcut)
      intro hall
      rw [hc] at hall
      obtain ⟨hstart,hfour⟩ := decodeChunks_cut out s _ d hpos hk (hlen ▸ hshort) _ hall
      rw [List.append_assoc] at hstart
      have hsame := (List.prefix_append_right_inj s).mp ((List.prefix_append_right_inj out).mp hstart)
      obtain ⟨rest,hrest⟩ := hsame
      have hd : replacement = d := (List.cons.inj hrest).1
      rw [← hd] at hfour
      revert hfour
      decide

private theorem splitOnce_append {pattern s a b : Text} (h : splitOnce pattern s = some (a,b))
    (t : Text) : splitOnce pattern (s ++ t) = some (a,b ++ t) := by
  induction s generalizing a with
  | nil => cases h
  | cons c s ih =>
    rw [List.cons_append,splitOnce]
    rw [splitOnce] at h
    split at h
    · rename_i hp
      obtain ⟨rest,hrest⟩ := List.isPrefixOf_iff_prefix.mp hp
      obtain ⟨rfl,rfl⟩ := Prod.mk.inj (Option.some.inj h)
      have hp' : pattern.isPrefixOf (c :: (s ++ t)) := by
        rw [List.isPrefixOf_iff_prefix,← List.cons_append,← hrest]
        exact ⟨rest ++ t,by simp⟩
      rw [if_pos hp',← List.cons_append,← hrest,List.append_assoc,List.drop_left,List.drop_left]
    · rename_i hp
      obtain ⟨⟨a',b'⟩,hsplit,he⟩ := Option.map_eq_some_iff.mp h
      obtain ⟨rfl,rfl⟩ := Prod.mk.inj he
      have hp' : ¬ pattern.isPrefixOf (c :: (s ++ t)) := by
        intro hpre
        apply hp
        rw [List.isPrefixOf_iff_prefix] at hpre ⊢
        have hlen := congrArg List.length (splitOnce_eq hsplit)
        simp only [List.length_append] at hlen
        apply List.prefix_of_prefix_length_le hpre (List.prefix_append (c :: s) t)
        rw [List.length_cons]
        omega
      rw [if_neg hp',ih hsplit]
      rfl

private theorem fromUtf8Lossy_chunk (bs tail : List UInt8) :
    fromUtf8Lossy (chunk bs ++ tail) = readChunk bs ++ fromUtf8Lossy tail := by
  rw [chunk,List.append_assoc,List.append_assoc,fromUtf8Lossy_encodeText_append,
    show crlf = '\r' :: ['\n'] from rfl,fromUtf8Lossy_between bs tail (by decide),readChunk]
  simp [crlf]

private theorem fromUtf8Lossy_response (head : List UInt8) (chunks : List (List UInt8)) :
    fromUtf8Lossy (response head chunks) =
      fromUtf8Lossy head ++ (crlf ++ crlf ++ (chunks.flatMap readChunk ++ lastChunk)) := by
  have hchunks : fromUtf8Lossy (chunks.flatMap chunk ++ encodeText lastChunk) =
      chunks.flatMap readChunk ++ lastChunk := by
    induction chunks with
    | nil => exact fromUtf8Lossy_encodeText lastChunk
    | cons c chunks ih =>
      rw [List.flatMap_cons,List.flatMap_cons,List.append_assoc,fromUtf8Lossy_chunk,ih,
        List.append_assoc]
  rw [response,List.append_assoc,List.append_assoc,
    show crlf ++ crlf = '\r' :: ['\n','\r','\n'] from rfl,
    fromUtf8Lossy_between head _ (by decide),hchunks]

/-- Decoding an answer panics exactly when a chunk that is reached ends inside a character of the
decoded text, and gives back the body of a chunked answer exactly when no chunk was cut inside a
character of the body. -/
theorem extractBody_iff (bytes : List UInt8) :
    (extractBody (fromUtf8Lossy bytes) ≠ none ↔
      ∀ head body, splitOnce (crlf ++ crlf) (fromUtf8Lossy bytes) = some (head,body) →
        isChunked head = true → EndsBetween body) ∧
    ∀ head body chunks, splitOnce (crlf ++ crlf) (fromUtf8Lossy head ++ (crlf ++ crlf)) =
        some (fromUtf8Lossy head,[]) → isChunked (fromUtf8Lossy head) = true →
      chunks.flatten = encodeText body → (∀ c ∈ chunks, c ≠ []) → (∀ c ∈ chunks, c.length < 2^64) →
      (extractBody (fromUtf8Lossy (response head chunks)) = some body ↔
        CutsBetween body chunks) := by
  constructor
  · rw [extractBody,← Option.isSome_iff_ne_none]
    cases hsplit : splitOnce (crlf ++ crlf) (fromUtf8Lossy bytes) with
    | none => simp
    | some p =>
      obtain ⟨head,body⟩ := p
      cases hchunked : isChunked head with
      | false =>
        refine iff_of_true (by simp [hchunked]) ?_
        rintro head' body' he hyes
        obtain ⟨rfl,rfl⟩ := Prod.mk.inj (Option.some.inj he)
        rw [hchunked] at hyes
        cases hyes
      | true =>
        simp only [hchunked,if_true]
        rw [decodeChunks_isSome]
        constructor
        · rintro h head' body' he -
          obtain ⟨rfl,rfl⟩ := Prod.mk.inj (Option.some.inj he)
          exact h
        · intro h
          exact h head body rfl hchunked
  · intro head body chunks hhead hchunked hbody hne hlt
    have hsplit := splitOnce_append hhead (chunks.flatMap readChunk ++ lastChunk)
    rw [List.append_assoc,List.nil_append] at hsplit
    rw [fromUtf8Lossy_response,extractBody,hsplit]
    simp only [hchunked,if_true]
    exact decodeChunks_framed [] body chunks hbody hne hlt

private def okHead : List UInt8 :=
  encodeText "HTTP/1.1 200 OK\r\nTransfer-Encoding: chunked".toList

theorem extractBody_whole : extractBody (fromUtf8Lossy (response okHead
    [encodeText "é".toList])) = some "é".toList := by
  refine ((extractBody_iff []).2 okHead "é".toList [encodeText "é".toList] (by decide) (by decide)
    (by decide) (by simp [encodeText,TextEncoder.bytes]) (by decide)).mpr ?_
  intro k hk
  obtain rfl | rfl : k = 0 ∨ k = 1 := by
    simp at hk
    omega
  · decide
  · decide

/-- A character of two bytes in two chunks. -/
theorem extractBody_panics : ¬ ((∀ bytes, extractBody (fromUtf8Lossy bytes) ≠ none) ∧
    ∀ head body chunks, splitOnce (crlf ++ crlf) (fromUtf8Lossy head ++ (crlf ++ crlf)) =
        some (fromUtf8Lossy head,[]) → isChunked (fromUtf8Lossy head) = true →
      chunks.flatten = encodeText body → (∀ c ∈ chunks, c ≠ []) → (∀ c ∈ chunks, c.length < 2^64) →
      extractBody (fromUtf8Lossy (response head chunks)) = some body) := by
  rintro ⟨htotal,-⟩
  apply htotal (response okHead [[0xC3],[0xA9]])
  have hsplit : splitOnce (crlf ++ crlf) (fromUtf8Lossy (response okHead [[0xC3],[0xA9]])) =
      some (fromUtf8Lossy okHead,"1\r\n\uFFFD\r\n1\r\n\uFFFD\r\n0\r\n\r\n".toList) := by decide
  have hchunked : isChunked (fromUtf8Lossy okHead) = true := by decide
  have hnext : nextChunk "1\r\n\uFFFD\r\n1\r\n\uFFFD\r\n0\r\n\r\n".toList =
      some (1,"\uFFFD\r\n1\r\n\uFFFD\r\n0\r\n\r\n".toList) := by decide
  simp only [extractBody,hsplit,hchunked,if_true]
  rw [decodeChunks_next hnext]
  rfl

end WeirdVault.Relay.Http
