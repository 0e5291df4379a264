import HashRatio.Job

/-!
# The midstate given to the chips

The chips resume SHA-256 after the first block of a header, from the 44 bytes of
`work.data`; verification hashes the whole header. Both reach one digest: four
byte-swapping helpers cancel, for every header.
-/

namespace HashRatio.Midstate
open Bytes Memory MmWork Miner

attribute [local irreducible] Sha256.compress

/-- What a chip compresses: the three swapped tail words, the nonce, the marker and the length. -/
def chipBlock (data : List Byte) (nonce : Word) : List Word :=
  (toWords 3 (data.drop 32)).map bswap32 ++ [nonce, 0x80000000] ++ List.replicate 10 0 ++ [640]

/-- The chaining value a chip starts from: the eight words of `data`, each swapped. -/
def chipState (data : List Byte) : Sha256.Chain :=
  Sha256.Chain.ofList ((toWords 8 (data.take 32)).map bswap32)

theorem map_bswap32_flipWords (n k : ℕ) (src : List Byte) (h : k ≤ n) :
    (toWords k (flipWords n src)).map bswap32 = toWords k src := by
  unfold toWords
  rw [List.map_map]
  apply List.map_congr_left
  intro i hi
  have hi' := List.mem_range.mp hi
  rw [Function.comp_apply, wordAt_flipWords n src i (by omega), bswap32_bswap32]

theorem chipState_workData (header : List Byte) :
    chipState (Job.workData header) =
      Sha256.compress Sha256.initial (toWords 16 (flip64 header)) := by
  generalize hc : Sha256.compress Sha256.initial (toWords 16 (flip64 header)) = c
  have htake : (Job.workData header).take 32 = flip32 (ofWords c.words) := by
    rw [Job.workData, hc]
    exact List.take_left' (by simp)
  rw [chipState, htake, flip32, map_bswap32_flipWords 8 8 _ (Nat.le_refl _)]
  have hwords := toWords_ofWords c.words
  rw [Sha256.Chain.words_length] at hwords
  rw [hwords, Sha256.Chain.ofList_words]

theorem chipBlock_workData (header : List Byte) (nonce : Word) :
    chipBlock (Job.workData header) nonce =
      (toWords 3 (header.drop 64)).map bswap32 ++ [nonce, 0x80000000] ++
        List.replicate 10 0 ++ [640] := by
  have hdrop : (Job.workData header).drop 32 = (header.drop 64).take 12 := by
    rw [Job.workData]
    exact List.drop_left' (by simp)
  have htake : toWords 3 ((header.drop 64).take 12) = toWords 3 (header.drop 64) := by
    by_cases h : 12 ≤ (header.drop 64).length
    · conv_rhs => rw [← List.take_append_drop 12 (header.drop 64)]
      exact (toWords_append_left 3 _ _ (by rw [List.length_take]; omega)).symm
    · rw [List.take_of_length_le (by omega)]
  rw [chipBlock, hdrop, htake]

/-! ### The buffer that is verified -/

section buffer
variable (w : Work) (nonce : Word) (h : w.header.length = 128)
include h

theorem swapBuffer_word (k : ℕ) (hk : k < 19) :
    wordAt (swapBuffer w nonce) k = bswap32 (wordAt w.header k) := by
  have hlen : (w.header.take (64 + 12)).length = 76 := by
    rw [List.length_take]
    omega
  rw [swapBuffer, flip80, wordAt_flipWords 20 _ k (by omega), splice, List.append_assoc,
    wordAt_append_left _ _ k (by omega)]
  conv_rhs => rw [← List.take_append_drop (64 + 12) w.header, wordAt_append_left _ _ k (by omega)]

theorem swapBuffer_nonce : wordAt (swapBuffer w nonce) 19 = nonce := by
  have hlen : (w.header.take (64 + 12)).length = 4 * 19 := by
    rw [List.length_take]
    omega
  have hword : wordAt (splice w.header (64 + 12) (wordBytes (bswap32 nonce))) 19 =
      bswap32 nonce := by
    rw [splice, List.append_assoc]
    have hdrop := wordAt_drop (w.header.take (64 + 12) ++ (wordBytes (bswap32 nonce) ++
      w.header.drop (64 + 12 + (wordBytes (bswap32 nonce)).length))) 19 0
    rw [List.drop_left' hlen, wordAt_append_left _ _ 0 (by simp)] at hdrop
    exact hdrop.symm.trans (beWord_wordBytes _)
  rw [swapBuffer, flip80, wordAt_flipWords 20 _ 19 (by omega), hword, bswap32_bswap32]

theorem swapBuffer_first : toWords 16 (swapBuffer w nonce) = toWords 16 (flip64 w.header) := by
  rw [flip64_eq]
  apply List.map_congr_left
  intro k hk
  have hk' := List.mem_range.mp hk
  rw [swapBuffer_word w nonce h k (by omega), wordAt_flipWords 16 _ k hk']

theorem swapBuffer_rest : toWords 4 ((swapBuffer w nonce).drop 64) =
    (toWords 3 (w.header.drop 64)).map bswap32 ++ [nonce] := by
  have hleft := toWords_drop 4 (swapBuffer w nonce) 16
  have hright := toWords_drop 3 w.header 16
  rw [hleft, hright]
  simp only [List.range_succ, List.range_zero, List.nil_append, List.cons_append,
    List.map_cons, List.map_nil, swapBuffer_word w nonce h 16 (by omega),
      swapBuffer_word w nonce h 17 (by omega),
    swapBuffer_word w nonce h 18 (by omega), swapBuffer_nonce w nonce h,
      Nat.add_zero, Nat.reduceAdd]

theorem digest_swapBuffer : Sha256.digest (swapBuffer w nonce) =
    Sha256.compress (Sha256.compress Sha256.initial (toWords 16 (flip64 w.header)))
      ((toWords 3 (w.header.drop 64)).map bswap32 ++ [nonce, 0x80000000] ++ List.replicate
        10 0 ++ [640]) := by
  generalize hbuf : swapBuffer w nonce = buf
  have hlen : buf.length = 80 := by
    rw [← hbuf, swapBuffer]
    exact flipWords_length 20 _
  have h64 : (buf.take 64).length = 64 := by
    rw [List.length_take]
    omega
  -- one block of the buffer, then its last 16 bytes with marker, zeros and length
  generalize htail : [0x80] ++ List.replicate (Sha256.padZeros 80) 0 ++ Sha256.lengthField 80 = tail
  have hpad : Sha256.pad buf = buf.take 64 ++ (buf.drop 64 ++ tail) := by
    rw [Sha256.pad, hlen, ← htail]
    simp only [← List.append_assoc, List.take_append_drop]
  have hrest : (buf.drop 64 ++ tail).length = 64 := by
    rw [List.length_append, List.length_drop, hlen, ← htail]
    rfl
  have hblock : toWords 16 (buf.drop 64 ++ tail) =
      (toWords 3 (w.header.drop 64)).map bswap32 ++ [nonce, 0x80000000] ++
        List.replicate 10 0 ++ [640] := by
    have htw : toWords 12 tail = [0x80000000] ++ List.replicate 10 0 ++ [640] := by
      rw [← htail]
      decide
    rw [toWords_append 4 12 _ _ (by rw [List.length_drop]; omega), htw, ← hbuf,
      swapBuffer_rest w nonce h]
    simp
  rw [Sha256.digest, hpad, Sha256.blocks_append 1 _ _ (by omega), Sha256.blocks_single _ h64,
    Sha256.blocks_single _ hrest, hblock, ShaDriver.toWords_take, ← hbuf,
      swapBuffer_first w nonce h]
  rfl

end buffer

/-- **The fast path agrees with verification.** For every slot, nonce2 and nonce, resuming from
`work.data` gives the digest of the 80-byte buffer that `test_nonce` hashes, and that digest is what
the engine holds before it is told to hash again. -/
theorem chip_digest_eq (m : Mem Byte) (mw : ℤ) (nonce2 nonce : Word) :
    Sha256.compress (chipState (minerGenNonce2Work m mw nonce2).2.data)
        (chipBlock (minerGenNonce2Work m mw nonce2).2.data nonce) =
      Sha256.digest (swapBuffer (minerGenNonce2Work m mw nonce2).2 nonce) ∧
    (ShaDriver.sha256Run (swapBuffer (minerGenNonce2Work m mw nonce2).2 nonce) 80).hash =
      Sha256.digest (swapBuffer (minerGenNonce2Work m mw nonce2).2 nonce) := by
  generalize hw : (minerGenNonce2Work m mw nonce2).2 = w
  have hdata : w.data = Job.workData w.header := by
    rw [← hw]
    exact Job.calcMidstate_eq _ mw _ rfl
  have hheader : w.header.length = 128 := by
    rw [← hw]
    exact read_length _ _ _
  have hbuf : (swapBuffer w nonce).length = 80 := flipWords_length 20 _
  constructor
  · rw [hdata, chipState_workData, chipBlock_workData, digest_swapBuffer w nonce hheader]
  · have hrun := ShaDriver.sha256Run_eq (swapBuffer w nonce) (by omega)
    rw [hbuf] at hrun
    rw [hrun]

end HashRatio.Midstate
