/-
What runs of `scoutfs_srch_add` leave in a log file.

One call either encodes into the last block, widening the block's and the file's bounds to
the entry (`scoutfsSrchAdd_of_room`), or, once the last block is past
`SCOUTFS_SRCH_BLOCK_SAFE_BYTES`, starts a new block (`scoutfsSrchAdd_of_full`).  In the
second case the new block's bounds are set to the entry and the file's are left as they
were, since the source sets the file's bounds from a block's first entry only in block 0.

* `decodeEntry_encodeEntry` — `decode_entry` reads back the entry `encode_entry` wrote, with
  its count, whatever bytes follow; `encodeEntryAt_spec` — run on a buffer with room for a
  full entry, `encode_entry` leaves exactly those bytes in front and writes nothing from
  `SCOUTFS_SRCH_ENTRY_MAX_BYTES` on, and `decodeEntry_take` — `decode_entry` reads nothing
  from there on;
* `srchAddAll_replicate` — repeating one entry fills block 0 two bytes at a time;
* `scoutfsSrchAdd_hides_entry` — after a block 0 filled with one entry, a smaller entry
  lands in block 1 outside the file's bounds (`fullBlockLog`), and
  `scoutfs_srch_search_xattrs` skips the file when it looks for that entry.
-/
import Scoutfs.SrchLog
import Scoutfs.Lib.LeBytes

namespace Scoutfs

open LeBytes

/-! ### Encodings -/

theorem encodeU64_zero : encodeU64 0 = [] := by
  decide

/-- An entry encoded against itself is a bare lengths word. -/
theorem encodeEntry_self (sre : ScoutfsSrchEntry) : encodeEntry sre sre = [0, 0] := by
  simp only [encodeEntry, sub_self, encodeU64_zero, List.length_nil, List.append_nil]
  decide

theorem two_le_length_encodeEntry (sre prev : ScoutfsSrchEntry) :
    2 ≤ (encodeEntry sre prev).length := by
  simp [encodeEntry, cpuToLe16]

theorem srchWiden_self (sre : ScoutfsSrchEntry) : srchWiden sre sre sre = (sre, sre) := by
  have heq : sreCmp sre sre = .eq := sreCmp_eq_eq.mpr rfl
  simp [srchWiden, heq]

/-! ### Round trips of words -/

theorem fls64_le (x : UInt64) : fls64 x ≤ 64 := by
  unfold fls64
  split_ifs with hx
  · omega
  · have hlt : x.toNat.log2 < 64 :=
      (Nat.log2_lt (fun h0 => hx (UInt64.toNat_inj.mp h0))).mpr x.toNat_lt
    omega

theorem toNat_lt_two_pow_fls64 (x : UInt64) : x.toNat < 2 ^ fls64 x := by
  unfold fls64
  split_ifs with hx
  · rw [hx]
    decide
  · exact Nat.lt_log2_self

theorem encodeU64_eq (v : UInt64) :
    encodeU64 v = (cpuToLe64 (zigzag v)).take ((fls64 (zigzag v) + 7) >>> 3) := rfl

theorem length_cpuToLe64 (v : UInt64) : (cpuToLe64 v).length = 8 := by
  simp [cpuToLe64]

theorem length_encodeU64 (v : UInt64) :
    (encodeU64 v).length = (fls64 (zigzag v) + 7) >>> 3 := by
  have hf := fls64_le (zigzag v)
  rw [encodeU64_eq, List.length_take, length_cpuToLe64, Nat.shiftRight_eq_div_pow]
  omega

theorem length_encodeU64_le (v : UInt64) : (encodeU64 v).length ≤ 8 := by
  have hf := fls64_le (zigzag v)
  rw [length_encodeU64, Nat.shiftRight_eq_div_pow]
  omega

/-- The counted bytes of a zigzag word hold all of it. -/
theorem zigzag_lt (v : UInt64) : (zigzag v).toNat < 256 ^ (encodeU64 v).length := by
  calc (zigzag v).toNat < 2 ^ fls64 (zigzag v) := toNat_lt_two_pow_fls64 _
    _ ≤ 2 ^ (8 * (encodeU64 v).length) := by
      apply Nat.pow_le_pow_right (by decide)
      rw [length_encodeU64, Nat.shiftRight_eq_div_pow]
      omega
    _ = 256 ^ (encodeU64 v).length := by rw [pow_mul]; rfl

theorem toNat_le64ToCpu {bs : List UInt8} (h : bs.length ≤ 8) :
    (le64ToCpu bs).toNat = leValue bs :=
  toNat_foldr_le bs h

theorem leValue_cpuToLe64 (v : UInt64) : leValue (cpuToLe64 v) = v.toNat := by
  rw [cpuToLe64, leValue_wordBytes v 8 le_rfl, Nat.mod_eq_of_lt (show v.toNat < 256 ^ 8 from v.toNat_lt)]

theorem toNat_byteMasks : ∀ {k : ℕ}, k ≤ 8 → (byteMasks.getD k 0).toNat = 2 ^ (8 * k) - 1
  | 0, _ | 1, _ | 2, _ | 3, _ | 4, _ | 5, _ | 6, _ | 7, _ | 8, _ => rfl
  | _ + 9, hk => absurd hk (by omega)

/-- The counted bytes of `encode_u64` are the whole zigzag word. -/
theorem leValue_encodeU64 (v : UInt64) : leValue (encodeU64 v) = (zigzag v).toNat := by
  have hlow : leValue (encodeU64 v) = (zigzag v).toNat % 256 ^ (encodeU64 v).length := by
    conv_lhs => rw [encodeU64_eq]
    rw [leValue_take, leValue_cpuToLe64, length_encodeU64]
  rw [hlow, Nat.mod_eq_of_lt (zigzag_lt v)]

/-- `decode_u64` of the bytes `encode_u64` counted, whatever follows them. -/
theorem decodeU64_encodeU64 (v : UInt64) (rest : List UInt8) :
    decodeU64 (encodeU64 v ++ rest) (encodeU64 v).length = v := by
  have hk := length_encodeU64_le v
  -- the masked load is the zigzag word
  have hload : le64ToCpu ((encodeU64 v ++ rest).take 8) &&& byteMasks.getD (encodeU64 v).length 0 =
      zigzag v := by
    apply UInt64.toNat_inj.mp
    have hlen : ((encodeU64 v ++ rest).take 8).length ≤ 8 := List.length_take_le _ _
    rw [toNat_and_low_bits _ _ _ (toNat_byteMasks hk), toNat_le64ToCpu hlen, pow_mul,
      show (2 : ℕ) ^ 8 = 256 from rfl, ← leValue_take, List.take_take, min_eq_left hk,
      List.take_left' rfl, leValue_encodeU64]
  unfold decodeU64
  rw [hload]
  exact unzigzag_zigzag v


/-! ### Round trips of entries -/

/-- The lengths word packs the three counts, each below 16, in its low nibbles. -/
theorem lengths_eq {a b c : ℕ} (ha : a < 16) (hb : b < 16) :
    a ||| b <<< 4 ||| c <<< 8 = a + 16 * b + 256 * c := by
  have h₁ : a ||| b <<< 4 = a + 16 * b := by
    rw [Nat.or_comm, ← Nat.shiftLeft_add_eq_or_of_lt (show a < 2 ^ 4 from ha), Nat.shiftLeft_eq]
    omega
  have h₂ : a + 16 * b < 2 ^ 8 := by omega
  rw [h₁, Nat.or_comm, ← Nat.shiftLeft_add_eq_or_of_lt h₂, Nat.shiftLeft_eq]
  omega

theorem length_cpuToLe16 (n : ℕ) : (cpuToLe16 n).length = 2 := rfl

theorem le16ToCpu_cpuToLe16 {n : ℕ} (h : n < 2 ^ 16) (rest : List UInt8) :
    le16ToCpu ((cpuToLe16 n ++ rest).take 2) = n := by
  rw [List.take_left' (length_cpuToLe16 n)]
  simp only [cpuToLe16, le16ToCpu, List.getD_cons_zero, List.getD_cons_succ, Nat.toUInt8_eq,
    UInt8.toNat_ofNat']
  omega

theorem encodeEntry_eq (sre prev : ScoutfsSrchEntry) :
    encodeEntry sre prev =
      cpuToLe16 ((encodeU64 (sre.hash - prev.hash)).length |||
          (encodeU64 (sre.ino - prev.ino)).length <<< 4 |||
          (encodeU64 (sre.id - prev.id)).length <<< 8) ++
        encodeU64 (sre.hash - prev.hash) ++ encodeU64 (sre.ino - prev.ino) ++
        encodeU64 (sre.id - prev.id) := rfl

theorem length_encodeEntry (sre prev : ScoutfsSrchEntry) :
    (encodeEntry sre prev).length = 2 + (encodeU64 (sre.hash - prev.hash)).length +
      (encodeU64 (sre.ino - prev.ino)).length + (encodeU64 (sre.id - prev.id)).length := by
  rw [encodeEntry_eq, List.length_append, List.length_append, List.length_append,
    length_cpuToLe16]

theorem length_encodeEntry_le (sre prev : ScoutfsSrchEntry) :
    (encodeEntry sre prev).length ≤ SCOUTFS_SRCH_ENTRY_MAX_BYTES := by
  have h₀ := length_encodeU64_le (sre.hash - prev.hash)
  have h₁ := length_encodeU64_le (sre.ino - prev.ino)
  have h₂ := length_encodeU64_le (sre.id - prev.id)
  rw [length_encodeEntry, SCOUTFS_SRCH_ENTRY_MAX_BYTES]
  omega

/-- `decode_entry` reads back the entry `encode_entry` wrote against the same `prev`, and the
same count, whatever bytes follow. -/
theorem decodeEntry_encodeEntry (sre prev : ScoutfsSrchEntry) (rest : List UInt8) :
    decodeEntry (encodeEntry sre prev ++ rest) prev = (sre, (encodeEntry sre prev).length) := by
  have hlen := length_encodeEntry sre prev
  -- name the three differences' bytes, each with what it decodes to
  obtain ⟨d₀, hd₀⟩ : ∃ d, encodeU64 (sre.hash - prev.hash) = d := ⟨_, rfl⟩
  obtain ⟨d₁, hd₁⟩ : ∃ d, encodeU64 (sre.ino - prev.ino) = d := ⟨_, rfl⟩
  obtain ⟨d₂, hd₂⟩ : ∃ d, encodeU64 (sre.id - prev.id) = d := ⟨_, rfl⟩
  have e₀ : ∀ r, decodeU64 (d₀ ++ r) d₀.length = sre.hash - prev.hash :=
    fun r => hd₀ ▸ decodeU64_encodeU64 _ r
  have e₁ : ∀ r, decodeU64 (d₁ ++ r) d₁.length = sre.ino - prev.ino :=
    fun r => hd₁ ▸ decodeU64_encodeU64 _ r
  have e₂ : ∀ r, decodeU64 (d₂ ++ r) d₂.length = sre.id - prev.id :=
    fun r => hd₂ ▸ decodeU64_encodeU64 _ r
  have h₀ : d₀.length ≤ 8 := hd₀ ▸ length_encodeU64_le _
  have h₁ : d₁.length ≤ 8 := hd₁ ▸ length_encodeU64_le _
  have h₂ : d₂.length ≤ 8 := hd₂ ▸ length_encodeU64_le _
  rw [hd₀, hd₁, hd₂] at hlen
  -- the buffer is the lengths word, then each difference's bytes
  have hbuf : encodeEntry sre prev ++ rest =
      cpuToLe16 (d₀.length + 16 * d₁.length + 256 * d₂.length) ++ (d₀ ++ (d₁ ++ (d₂ ++ rest))) := by
    rw [encodeEntry_eq, hd₀, hd₁, hd₂, lengths_eq (by omega) (by omega), List.append_assoc,
      List.append_assoc, List.append_assoc]
  -- the counts read back from the lengths word
  have hb₀ : min 8 ((d₀.length + 16 * d₁.length + 256 * d₂.length) &&& 15) = d₀.length := by
    rw [show (15 : ℕ) = 2 ^ 4 - 1 from rfl, Nat.and_two_pow_sub_one_eq_mod]
    omega
  have hb₁ : min 8 ((d₀.length + 16 * d₁.length + 256 * d₂.length) >>> 4 &&& 15) =
      d₁.length := by
    rw [show (15 : ℕ) = 2 ^ 4 - 1 from rfl, Nat.and_two_pow_sub_one_eq_mod,
      Nat.shiftRight_eq_div_pow]
    omega
  have hb₂ : min 8 ((d₀.length + 16 * d₁.length + 256 * d₂.length) >>> 8 &&& 15) =
      d₂.length := by
    rw [show (15 : ℕ) = 2 ^ 4 - 1 from rfl, Nat.and_two_pow_sub_one_eq_mod,
      Nat.shiftRight_eq_div_pow]
    omega
  -- each difference is decoded from its own bytes
  have hdrop : ∀ (n k : ℕ) (l : List UInt8), (cpuToLe16 n ++ l).drop (2 + k) = l.drop k :=
    fun n k l => @List.drop_length_add_append _ (cpuToLe16 n) l k
  unfold decodeEntry
  dsimp only
  rw [hbuf, le16ToCpu_cpuToLe16 (by omega), hb₀, hb₁, hb₂, List.drop_left' (length_cpuToLe16 _),
    hdrop, Nat.add_assoc 2, hdrop, List.drop_left, List.drop_length_add_append, List.drop_left, e₀,
    e₁, e₂, hlen]
  simp only [add_sub_cancel, Nat.add_assoc]


/-! ### The window of an entry -/

/-- `decode_u64` loads one word: it reads no byte past the eighth. -/
theorem decodeU64_take (buf : List UInt8) {n : ℕ} (hn : 8 ≤ n) (k : ℕ) :
    decodeU64 (buf.take n) k = decodeU64 buf k := by
  unfold decodeU64
  rw [List.take_take, min_eq_left hn]

/-- `decode_entry` reads no byte past `SCOUTFS_SRCH_ENTRY_MAX_BYTES`. -/
theorem decodeEntry_take (buf : List UInt8) (prev : ScoutfsSrchEntry) :
    decodeEntry (buf.take SCOUTFS_SRCH_ENTRY_MAX_BYTES) prev = decodeEntry buf prev := by
  -- a word loaded at most 18 bytes in ends inside the window
  have hwin : ∀ off, off ≤ 18 → ∀ k,
      decodeU64 ((buf.take SCOUTFS_SRCH_ENTRY_MAX_BYTES).drop off) k = decodeU64 (buf.drop off) k := by
    intro off hoff k
    rw [List.drop_take, decodeU64_take _ (by rw [SCOUTFS_SRCH_ENTRY_MAX_BYTES]; omega)]
  unfold decodeEntry
  dsimp only
  rw [List.take_take, min_eq_left (show 2 ≤ SCOUTFS_SRCH_ENTRY_MAX_BYTES by decide),
    hwin 2 (by omega), hwin _ ?_, hwin _ ?_] <;> omega

theorem encodeU64At_eq (buf : List UInt8) (off : ℕ) (v : UInt64) :
    encodeU64At buf off v = (putUnalignedLe64 buf off (zigzag v), (encodeU64 v).length) := by
  rw [length_encodeU64]
  rfl

theorem take_cpuToLe64_zigzag (v : UInt64) :
    (cpuToLe64 (zigzag v)).take (encodeU64 v).length = encodeU64 v := by
  rw [length_encodeU64]
  rfl

section Store

variable {buf : List UInt8} {off : ℕ}

theorem length_putUnalignedLe64 (h : off + 8 ≤ buf.length) (v : UInt64) :
    (putUnalignedLe64 buf off v).length = buf.length := by
  simp only [putUnalignedLe64, List.length_append, List.length_take, List.length_drop,
    length_cpuToLe64]
  omega

/-- A store keeps the bytes before it and puts the word's bytes after them. -/
theorem take_putUnalignedLe64 (h : off + 8 ≤ buf.length) (v : UInt64) {k : ℕ} (hk : k ≤ 8) :
    (putUnalignedLe64 buf off v).take (off + k) = buf.take off ++ (cpuToLe64 v).take k := by
  have hoff : (buf.take off).length = off := List.length_take_of_le (by omega)
  calc (putUnalignedLe64 buf off v).take (off + k)
      = (buf.take off ++ (cpuToLe64 v ++ buf.drop (off + 8))).take
          ((buf.take off).length + k) := by rw [hoff, putUnalignedLe64, List.append_assoc]
    _ = buf.take off ++ (cpuToLe64 v).take k := by
      rw [List.take_length_add_append,
        List.take_append_of_le_length (by rw [length_cpuToLe64]; exact hk)]

/-- A store writes no byte from `off + 8` on. -/
theorem drop_putUnalignedLe64 (h : off + 8 ≤ buf.length) (v : UInt64) {n : ℕ} (hn : off + 8 ≤ n) :
    (putUnalignedLe64 buf off v).drop n = buf.drop n := by
  have hoff : (buf.take off).length = off := List.length_take_of_le (by omega)
  have hlen : (buf.take off ++ cpuToLe64 v).length = off + 8 := by
    rw [List.length_append, hoff, length_cpuToLe64]
  calc (putUnalignedLe64 buf off v).drop n
      = ((buf.take off ++ cpuToLe64 v) ++ buf.drop (off + 8)).drop
          ((buf.take off ++ cpuToLe64 v).length + (n - (off + 8))) := by
        rw [hlen, putUnalignedLe64, Nat.add_sub_cancel' hn]
    _ = buf.drop n := by
      rw [List.drop_length_add_append, List.drop_drop, Nat.add_sub_cancel' hn]

/-- The word a store puts at `off` is what `decode_u64` loads there. -/
theorem drop_putUnalignedLe64_self (h : off + 8 ≤ buf.length) (v : UInt64) :
    (putUnalignedLe64 buf off v).drop off = cpuToLe64 v ++ buf.drop (off + 8) := by
  rw [putUnalignedLe64, List.append_assoc, List.drop_left' (List.length_take_of_le (by omega))]

end Store

/-- `encode_u64` stores a word that `decode_u64` loads back from the same offset, with the
count it returned. -/
theorem decodeU64_encodeU64At {buf : List UInt8} {off : ℕ} (h : off + 8 ≤ buf.length)
    (v : UInt64) :
    decodeU64 ((encodeU64At buf off v).1.drop off) (encodeU64At buf off v).2 = v := by
  rw [encodeU64At_eq, drop_putUnalignedLe64_self h,
    ← List.take_append_drop (encodeU64 v).length (cpuToLe64 (zigzag v)), take_cpuToLe64_zigzag,
    List.append_assoc, decodeU64_encodeU64]


/-- What `encode_entry` leaves in a buffer with room for a full entry: the bytes of
`encodeEntry` at its front, their count returned, and every byte from
`SCOUTFS_SRCH_ENTRY_MAX_BYTES` on as it was. -/
theorem encodeEntryAt_spec {buf : List UInt8} (hbuf : SCOUTFS_SRCH_ENTRY_MAX_BYTES ≤ buf.length)
    (sre prev : ScoutfsSrchEntry) :
    (encodeEntryAt buf sre prev).2 = (encodeEntry sre prev).length ∧
    (encodeEntryAt buf sre prev).1.take (encodeEntry sre prev).length = encodeEntry sre prev ∧
    (encodeEntryAt buf sre prev).1.length = buf.length ∧
    (encodeEntryAt buf sre prev).1.drop SCOUTFS_SRCH_ENTRY_MAX_BYTES =
      buf.drop SCOUTFS_SRCH_ENTRY_MAX_BYTES := by
  have hmax : SCOUTFS_SRCH_ENTRY_MAX_BYTES = 26 := rfl
  rw [hmax] at hbuf ⊢
  have hlen := length_encodeEntry sre prev
  have h₀ := length_encodeU64_le (sre.hash - prev.hash)
  have h₁ := length_encodeU64_le (sre.ino - prev.ino)
  have h₂ := length_encodeU64_le (sre.id - prev.id)
  -- the three word stores, each after the counted bytes of the one before
  obtain ⟨buf₁, hb₁⟩ : ∃ b, putUnalignedLe64 buf 2 (zigzag (sre.hash - prev.hash)) = b :=
    ⟨_, rfl⟩
  obtain ⟨buf₂, hb₂⟩ : ∃ b, putUnalignedLe64 buf₁ (2 + (encodeU64 (sre.hash - prev.hash)).length)
      (zigzag (sre.ino - prev.ino)) = b := ⟨_, rfl⟩
  obtain ⟨buf₃, hb₃⟩ : ∃ b, putUnalignedLe64 buf₂ (2 + (encodeU64 (sre.hash - prev.hash)).length +
      (encodeU64 (sre.ino - prev.ino)).length) (zigzag (sre.id - prev.id)) = b := ⟨_, rfl⟩
  have hat : encodeEntryAt buf sre prev =
      (putUnalignedLe16 buf₃ ((encodeU64 (sre.hash - prev.hash)).length |||
          (encodeU64 (sre.ino - prev.ino)).length <<< 4 |||
          (encodeU64 (sre.id - prev.id)).length <<< 8),
        2 + (encodeU64 (sre.hash - prev.hash)).length + (encodeU64 (sre.ino - prev.ino)).length +
          (encodeU64 (sre.id - prev.id)).length) := by
    rw [← hb₃, ← hb₂, ← hb₁]
    simp only [encodeEntryAt, encodeU64At_eq]
  have hl₁ : buf₁.length = buf.length := hb₁ ▸ length_putUnalignedLe64 (by omega) _
  have hl₂ : buf₂.length = buf.length := hl₁ ▸ hb₂ ▸ length_putUnalignedLe64 (by omega) _
  have hl₃ : buf₃.length = buf.length := hl₂ ▸ hb₃ ▸ length_putUnalignedLe64 (by omega) _
  -- each store leaves the bytes before it and adds the counted bytes of its word
  have ht₁ : buf₁.take (2 + (encodeU64 (sre.hash - prev.hash)).length) =
      buf.take 2 ++ encodeU64 (sre.hash - prev.hash) := by
    rw [← hb₁, take_putUnalignedLe64 (by omega) _ h₀, take_cpuToLe64_zigzag]
  have ht₂ : buf₂.take (2 + (encodeU64 (sre.hash - prev.hash)).length +
      (encodeU64 (sre.ino - prev.ino)).length) =
      buf.take 2 ++ encodeU64 (sre.hash - prev.hash) ++ encodeU64 (sre.ino - prev.ino) := by
    rw [← hb₂, take_putUnalignedLe64 (by omega) _ h₁, take_cpuToLe64_zigzag, ht₁]
  have ht₃ : buf₃.take ((encodeEntry sre prev).length) =
      buf.take 2 ++ encodeU64 (sre.hash - prev.hash) ++ encodeU64 (sre.ino - prev.ino) ++
        encodeU64 (sre.id - prev.id) := by
    rw [hlen, ← hb₃, take_putUnalignedLe64 (by omega) _ h₂, take_cpuToLe64_zigzag, ht₂]
  -- and none writes from byte 26 on
  have hd₃ : buf₃.drop 26 = buf.drop 26 := by
    rw [← hb₃, drop_putUnalignedLe64 (by omega) _ (by omega), ← hb₂,
      drop_putUnalignedLe64 (by omega) _ (by omega), ← hb₁,
      drop_putUnalignedLe64 (by omega) _ (by omega)]
  have htake2 : (buf.take 2).length = 2 := List.length_take_of_le (by omega)
  refine ⟨by rw [hat, hlen], ?_, ?_, ?_⟩
  · -- the lengths word goes in front of the counted bytes
    obtain ⟨m, hm⟩ : ∃ m, (encodeEntry sre prev).length = 2 + m := ⟨_, (Nat.add_sub_cancel' (by omega)).symm⟩
    have hfront : (buf₃.drop 2).take m = (buf₃.take (2 + m)).drop 2 := by
      rw [List.drop_take, Nat.add_sub_cancel_left]
    have htake16 : ∀ n (l : List UInt8), (cpuToLe16 n ++ l).take (2 + m) = cpuToLe16 n ++ l.take m :=
      fun n l => @List.take_length_add_append _ (cpuToLe16 n) l m
    rw [hm] at ht₃
    rw [hat]
    dsimp only
    rw [putUnalignedLe16, hm, htake16, hfront, ht₃,
      List.append_assoc, List.append_assoc, List.drop_left' htake2, encodeEntry_eq]
    simp only [List.append_assoc]
  · rw [hat, putUnalignedLe16, List.length_append, length_cpuToLe16, List.length_drop, hl₃]
    omega
  · have hdrop16 : ∀ n (l : List UInt8), (cpuToLe16 n ++ l).drop 26 = l.drop 24 :=
      fun n l => @List.drop_length_add_append _ (cpuToLe16 n) l 24
    rw [hat]
    dsimp only
    rw [putUnalignedLe16, hdrop16, List.drop_drop]
    exact hd₃

theorem decodeEntry_encodeEntryAt :
    (∀ (buf : List UInt8) (off : ℕ) (v : UInt64), off + 8 ≤ buf.length →
      decodeU64 ((encodeU64At buf off v).1.drop off) (encodeU64At buf off v).2 = v) ∧
    (∀ (sre prev : ScoutfsSrchEntry) (rest : List UInt8),
      decodeEntry (encodeEntry sre prev ++ rest) prev = (sre, (encodeEntry sre prev).length)) ∧
    (∀ (buf : List UInt8) (sre prev : ScoutfsSrchEntry),
      SCOUTFS_SRCH_ENTRY_MAX_BYTES ≤ buf.length →
      decodeEntry (encodeEntryAt buf sre prev).1 prev = (sre, (encodeEntryAt buf sre prev).2) ∧
      2 ≤ (encodeEntryAt buf sre prev).2 ∧
      (encodeEntryAt buf sre prev).2 ≤ SCOUTFS_SRCH_ENTRY_MAX_BYTES ∧
      (encodeEntryAt buf sre prev).1.length = buf.length ∧
      (encodeEntryAt buf sre prev).1.drop SCOUTFS_SRCH_ENTRY_MAX_BYTES =
        buf.drop SCOUTFS_SRCH_ENTRY_MAX_BYTES) ∧
    (∀ (buf buf' : List UInt8) (prev : ScoutfsSrchEntry),
      buf.take SCOUTFS_SRCH_ENTRY_MAX_BYTES = buf'.take SCOUTFS_SRCH_ENTRY_MAX_BYTES →
      decodeEntry buf prev = decodeEntry buf' prev) := by
  refine ⟨fun buf off v h => decodeU64_encodeU64At h v, decodeEntry_encodeEntry, ?_, ?_⟩
  · intro buf sre prev hbuf
    obtain ⟨hcount, hfront, hlen, hback⟩ := encodeEntryAt_spec hbuf sre prev
    -- the buffer is the entry's bytes followed by what the stores left after them
    have hsplit : (encodeEntryAt buf sre prev).1 = encodeEntry sre prev ++
        (encodeEntryAt buf sre prev).1.drop (encodeEntry sre prev).length := by
      conv_lhs => rw [← List.take_append_drop (encodeEntry sre prev).length
        (encodeEntryAt buf sre prev).1]
      rw [hfront]
    refine ⟨?_, hcount ▸ two_le_length_encodeEntry sre prev,
      hcount ▸ length_encodeEntry_le sre prev, hlen, hback⟩
    rw [hsplit, decodeEntry_encodeEntry, hcount]
  · -- decoding reads only the window
    intro buf buf' prev h
    rw [← decodeEntry_take buf, h, decodeEntry_take]

/-- An entry whose hash difference is negative and whose id difference is zero, encoded into
a zeroed window. -/
theorem decodeEntry_encodeEntryAt_zeroed :
    SCOUTFS_SRCH_ENTRY_MAX_BYTES ≤ (List.replicate 26 (0 : UInt8)).length ∧
    decodeEntry (encodeEntryAt (List.replicate 26 0) ⟨U64_MAX, 1, 0⟩ .zero).1 .zero =
      (⟨U64_MAX, 1, 0⟩, (encodeEntryAt (List.replicate 26 0) ⟨U64_MAX, 1, 0⟩ .zero).2) :=
  ⟨by decide, (decodeEntry_encodeEntryAt.2.2.1 _ _ _ (by decide)).1⟩

/-! ### One addition -/

section Step

variable {sfl : SrchFileData} {bs : List SrchBlockData} {srb : SrchBlockData}

/-- The block `scoutfs_srch_add` starts from in a file of blocks `bs ++ [srb]` is the last
one, at index `bs.length`. -/
theorem srchAdd_blk (bs : List SrchBlockData) (srb : SrchBlockData) :
    (if (bs ++ [srb]).length > 1 then (bs ++ [srb]).length - 1 else 0) = bs.length := by
  simp only [List.length_append, List.length_singleton]
  split <;> omega

theorem getD_last (bs : List SrchBlockData) (srb d : SrchBlockData) :
    (bs ++ [srb]).getD bs.length d = srb := by
  simp [List.getD_eq_getElem?_getD]

/-- The first addition to a new file writes block 0 and sets the file's bounds. -/
theorem scoutfsSrchAdd_empty (sre : ScoutfsSrchEntry) :
    scoutfsSrchAdd .empty sre.hash sre.ino sre.id =
      ⟨sre, sre, [⟨sre, sre, sre, 1, encodeEntry sre .zero⟩], 1⟩ := by
  simp [scoutfsSrchAdd, SrchFileData.empty, SrchBlockData.zero, SrchBlockData.entryBytes]

/-- An addition to a last block with room, which already holds entries, widens the block's
and the file's bounds to the entry. -/
theorem scoutfsSrchAdd_of_room (hblocks : sfl.blocks = bs ++ [srb])
    (hroom : srb.entryBytes ≤ SCOUTFS_SRCH_BLOCK_SAFE_BYTES) (hne : srb.entryBytes ≠ 0)
    (sre : ScoutfsSrchEntry) :
    scoutfsSrchAdd sfl sre.hash sre.ino sre.id =
      ⟨(srchWiden sre sfl.first sfl.last).1, (srchWiden sre sfl.first sfl.last).2,
        bs ++ [⟨(srchWiden sre srb.first srb.last).1, (srchWiden sre srb.first srb.last).2, sre,
          srb.entryNr + 1, srb.entries ++ encodeEntry sre srb.tail⟩], sfl.entries + 1⟩ := by
  have hnot : ¬ SCOUTFS_SRCH_BLOCK_SAFE_BYTES < srb.entryBytes := not_lt.mpr hroom
  simp only [scoutfsSrchAdd, hblocks, srchAdd_blk, getD_last, gt_iff_lt, hnot, if_false, hne,
    List.take_left']

/-- An addition after a full last block starts a new block and leaves the file's bounds as
they were. -/
theorem scoutfsSrchAdd_of_full (hblocks : sfl.blocks = bs ++ [srb])
    (hfull : SCOUTFS_SRCH_BLOCK_SAFE_BYTES < srb.entryBytes) (sre : ScoutfsSrchEntry) :
    scoutfsSrchAdd sfl sre.hash sre.ino sre.id =
      ⟨sfl.first, sfl.last, bs ++ [srb, ⟨sre, sre, sre, 1, encodeEntry sre .zero⟩],
        sfl.entries + 1⟩ := by
  have htake : (bs ++ [srb]).take (bs.length + 1) = bs ++ [srb] :=
    List.take_of_length_le (by simp)
  have hzero : SrchBlockData.zero.entryBytes = 0 := rfl
  simp only [scoutfsSrchAdd, hblocks, srchAdd_blk, getD_last, gt_iff_lt, hfull, if_true, hzero,
    Nat.add_one_ne_zero, htake]
  simp [SrchBlockData.zero]

end Step

/-! ### Runs -/

theorem srchAddAll_append (sfl : SrchFileData) (l₁ l₂ : List ScoutfsSrchEntry) :
    srchAddAll sfl (l₁ ++ l₂) = srchAddAll (srchAddAll sfl l₁) l₂ :=
  List.foldl_append

theorem srchAddAll_singleton (sfl : SrchFileData) (sre : ScoutfsSrchEntry) :
    srchAddAll sfl [sre] = scoutfsSrchAdd sfl sre.hash sre.ino sre.id :=
  rfl

/-- A lengths word for each of `n` repeats takes `2 * n` bytes. -/
theorem length_flatten_replicate_lengths (n : ℕ) :
    (List.replicate n [(0 : UInt8), 0]).flatten.length = 2 * n := by
  simp [List.length_flatten, Nat.mul_comm]

/-- Adding one entry `n + 1` times to a new file, while block 0 has room: the entry's
encoding against zeros, then a bare lengths word for each repeat. -/
theorem srchAddAll_replicate (sre : ScoutfsSrchEntry) :
    ∀ n : ℕ, (encodeEntry sre .zero).length + 2 * n ≤ SCOUTFS_SRCH_BLOCK_SAFE_BYTES + 2 →
      srchAddAll .empty (List.replicate (n + 1) sre) =
        ⟨sre, sre, [⟨sre, sre, sre, n + 1,
          encodeEntry sre .zero ++ (List.replicate n [(0 : UInt8), 0]).flatten⟩], n + 1⟩
  | 0, _ => by
    simp [srchAddAll, scoutfsSrchAdd_empty]
  | n + 1, hn => by
    have ih := srchAddAll_replicate sre n (by omega)
    have hlen := two_le_length_encodeEntry sre .zero
    -- block 0 holds the first encoding and `n` lengths words, below the safe bytes
    have hbytes : (encodeEntry sre .zero ++ (List.replicate n [(0 : UInt8), 0]).flatten).length =
        (encodeEntry sre .zero).length + 2 * n := by
      rw [List.length_append, length_flatten_replicate_lengths]
    rw [List.replicate_succ', srchAddAll_append, ih]
    simp only [srchAddAll, List.foldl_cons, List.foldl_nil]
    rw [@scoutfsSrchAdd_of_room _ [] _ rfl (by simp only [SrchBlockData.entryBytes]; omega)
      (by simp only [SrchBlockData.entryBytes]; omega)]
    simp [srchWiden_self, encodeEntry_self, List.replicate_succ', List.flatten_append]

/-- The log file after 32698 additions of `(5, 5, 5)` and one of `(1, 1, 1)`. -/
def fullBlockLog : SrchFileData :=
  srchAddAll .empty (List.replicate 32698 ⟨5, 5, 5⟩ ++ [⟨1, 1, 1⟩])

/-- In `fullBlockLog`, block 0 passes the safe bytes, so `(1, 1, 1)` starts block 1 and the
file's bounds stay at `(5, 5, 5)`.  The file holds `(1, 1, 1)`, but a search for hash 1 over
every inode skips the file, finds nothing, and reports that it is done. -/
theorem scoutfsSrchAdd_hides_entry :
    (⟨1, 1, 1⟩ : ScoutfsSrchEntry) ∈ fullBlockLog.toSrchFile.entries ∧
      fullBlockLog.first = ⟨5, 5, 5⟩ ∧ fullBlockLog.last = ⟨5, 5, 5⟩ ∧
      scoutfsSrchSearchXattrs 1 [(.log, fullBlockLog.toSrchFile)] 1 0 U64_MAX =
        some (ScoutfsSrchRbRoot.empty, true) := by
  have hlen : (encodeEntry ⟨5, 5, 5⟩ .zero).length = 5 := by decide
  let blk0 : SrchBlockData := ⟨⟨5, 5, 5⟩, ⟨5, 5, 5⟩, ⟨5, 5, 5⟩, 32698,
    encodeEntry ⟨5, 5, 5⟩ .zero ++ (List.replicate 32697 [(0 : UInt8), 0]).flatten⟩
  let blk1 : SrchBlockData := ⟨⟨1, 1, 1⟩, ⟨1, 1, 1⟩, ⟨1, 1, 1⟩, 1, encodeEntry ⟨1, 1, 1⟩ .zero⟩
  have hfill : srchAddAll .empty (List.replicate 32698 ⟨5, 5, 5⟩) =
      ⟨⟨5, 5, 5⟩, ⟨5, 5, 5⟩, [blk0], 32698⟩ :=
    srchAddAll_replicate ⟨5, 5, 5⟩ 32697 (by rw [hlen]; decide)
  -- block 0 ends at byte 65399, one past the safe bytes
  have hfull : SCOUTFS_SRCH_BLOCK_SAFE_BYTES < blk0.entryBytes := by
    simp only [blk0, SrchBlockData.entryBytes]
    rw [List.length_append, length_flatten_replicate_lengths, hlen]
    decide
  have hblocks : (⟨⟨5, 5, 5⟩, ⟨5, 5, 5⟩, [blk0], 32698⟩ : SrchFileData).blocks = [] ++ [blk0] :=
    rfl
  have hsfl : fullBlockLog = ⟨⟨5, 5, 5⟩, ⟨5, 5, 5⟩, [blk0, blk1], 32699⟩ := by
    rw [fullBlockLog, srchAddAll_append, hfill, srchAddAll_singleton,
      scoutfsSrchAdd_of_full hblocks hfull]
    rfl
  have hdecode : blk1.toSrchBlock.entries = [⟨1, 1, 1⟩] := by
    decide
  rw [hsfl]
  refine ⟨?_, rfl, rfl, ?_⟩
  · -- `(1, 1, 1)` is the one entry of block 1
    refine List.mem_flatMap.mpr ⟨blk1.toSrchBlock, List.mem_map.mpr ⟨blk1, by simp, rfl⟩, ?_⟩
    rw [hdecode]
    exact List.mem_singleton_self _
  · -- the search's range ends at `(1, U64_MAX, U64_MAX)`, below the file's first entry
    have hskip : searchFile .log (SrchFileData.toSrchFile ⟨⟨5, 5, 5⟩, ⟨5, 5, 5⟩, [blk0, blk1], 32699⟩)
        ⟨1, 0, 0⟩ SRCH_LIMIT (ScoutfsSrchRbRoot.empty, ⟨1, U64_MAX, U64_MAX⟩) =
          (ScoutfsSrchRbRoot.empty, ⟨1, U64_MAX, U64_MAX⟩) := by
      rw [searchFile, if_pos (Or.inr (by decide))]
    have hfinal : sreCmp ⟨1, U64_MAX, U64_MAX⟩ ⟨1, U64_MAX, U64_MAX⟩ = .eq := sreCmp_eq_eq.mpr rfl
    simp only [scoutfsSrchSearchXattrs, srchSearchRetry, srchSearchPass, List.foldl_cons,
      List.foldl_nil, hskip]
    simp [hfinal]

end Scoutfs
