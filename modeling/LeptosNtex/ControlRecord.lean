/-
The codec of the control record (`static_routes/storage.rs`, `encode`, `decode`,
`read_record`, `write_generation`).

`encode` writes a whole record, `write_generation` eight bytes of one, and
`decode` reads both.

* `decode_generations` — a new record and any generations written to it read
  back;
* `decode_canonical` — what is read is what would be written;
* `record_codec` — both, so that a state has one record.
-/
import LeptosNtex.Storage

namespace StaticStorage

/-! ### Numbers -/

theorem toLeBytes_fromLeBytes : ∀ bs : List UInt8, toLeBytes bs.length (fromLeBytes bs) = bs := by
  intro bs
  induction bs with
  | nil => rfl
  | cons b bs ih =>
    have hlow : (b.toNat + 256 * fromLeBytes bs) % 256 = b.toNat := by
      have hb := b.toNat_lt
      omega
    have hhigh : (b.toNat + 256 * fromLeBytes bs) / 256 = fromLeBytes bs := by
      have hb := b.toNat_lt
      omega
    rw [List.length_cons, fromLeBytes, toLeBytes, hlow, hhigh, ih, UInt8.ofNat_toNat]

theorem fromLeBytes_lt : ∀ bs : List UInt8, fromLeBytes bs < 256 ^ bs.length := by
  intro bs
  induction bs with
  | nil => exact Nat.one_pos
  | cons b bs ih =>
    have hb := b.toNat_lt
    rw [fromLeBytes, List.length_cons, Nat.pow_succ]
    omega

/-- Eight bytes are the field of the number in them. -/
theorem toLeBytes_eight {bs : List UInt8} (h : bs.length = 8) :
    toLeBytes 8 (fromLeBytes bs) = bs := by
  have hbytes := toLeBytes_fromLeBytes bs
  rwa [h] at hbytes

theorem fromLeBytes_eight {bs : List UInt8} (h : bs.length = 8) : fromLeBytes bs < u64Size := by
  have hlt := fromLeBytes_lt bs
  rw [h] at hlt
  exact hlt

/-! ### What is written reads back -/

/-- `write_generation`, again and again. -/
def writeGenerations (bytes : List UInt8) (generations : List UInt64) : List UInt8 :=
  generations.foldl (fun bytes generation => writeGeneration bytes generation.toNat) bytes

theorem decode_writeGenerations : ∀ {generations : List UInt64} {bytes : List UInt8}
    {record : Record}, decode bytes = .ok record →
      decode (writeGenerations bytes generations) = .ok { record with
        generation := (generations.getLast?.map UInt64.toNat).getD record.generation } := by
  intro generations
  induction generations with
  | nil => exact fun h => h
  | cons generation generations ih =>
    intro bytes record h
    have hnext := ih (decode_writeGeneration generation.toNat_lt h)
    rw [writeGenerations, List.foldl_cons]
    refine hnext.trans ?_
    rw [List.getLast?_cons]
    rcases generations.getLast? with _ | last
    · rfl
    · rfl

/-- **A new record reads back** with the last generation that was written to it. -/
theorem decode_generations (limits : Limits) (generations : List UInt64) :
    decode (writeGenerations (encode limits) generations)
      = .ok ⟨limits, (generations.getLast?.getD 0).toNat⟩ := by
  rw [decode_writeGenerations (decode_encode limits)]
  rcases generations.getLast? with _ | last
  · rfl
  · rfl

/-! ### What is read would be written -/

/-- A field whose flag and number `decode` accepts. -/
theorem field_canonical {bs : List UInt8} {f : UInt8} (hlen : bs.length = 8) (hflag : ¬ 1 < f)
    (hzero : ¬ (f = 0 ∧ fromLeBytes bs ≠ 0)) :
    flag (if f = 1 then some (UInt64.ofNat (fromLeBytes bs)) else none) = f ∧
      field (if f = 1 then some (UInt64.ofNat (fromLeBytes bs)) else none) = bs := by
  by_cases hone : f = 1
  · have hvalue : (UInt64.ofNat (fromLeBytes bs)).toNat = fromLeBytes bs := by
      rw [UInt64.toNat_ofNat']
      exact Nat.mod_eq_of_lt (fromLeBytes_eight hlen)
    subst hone
    refine ⟨rfl, ?_⟩
    rw [if_pos rfl, field, Option.getD_some, hvalue, toLeBytes_eight hlen]
  · have hf : f = 0 := by
      rw [UInt8.lt_iff_toNat_lt] at hflag
      rw [← UInt8.toNat_inj] at hone ⊢
      have hone' : (1 : UInt8).toNat = 1 := rfl
      have hzero' : (0 : UInt8).toNat = 0 := rfl
      omega
    have hvalue : fromLeBytes bs = 0 := by
      by_contra hne
      exact hzero ⟨hf, hne⟩
    rw [if_neg hone]
    refine ⟨hf.symm, ?_⟩
    have hbytes := toLeBytes_eight hlen
    rw [hvalue] at hbytes
    exact hbytes

theorem drop_getD {bytes : List UInt8} {i : ℕ} (h : i < bytes.length) :
    bytes.drop i = bytes.getD i 0 :: bytes.drop (i + 1) := by
  rw [List.drop_eq_getElem_cons h, List.getD_eq_getElem?_getD, List.getElem?_eq_getElem h,
    Option.getD_some]

theorem drop_slice (bytes : List UInt8) (i k : ℕ) :
    bytes.drop i = (bytes.drop i).take k ++ bytes.drop (i + k) := by
  rw [← List.drop_drop, List.take_append_drop]

/-- The slices of the first 32 bytes that `decode` reads. -/
theorem split_limits {bytes : List UInt8} (h : bytes.length = generationOffset) :
    bytes = bytes.take 8 ++ [bytes.getD 8 0, bytes.getD 9 0] ++ (bytes.drop 10).take 6 ++
      (bytes.drop 16).take 8 ++ (bytes.drop 24).take 8 := by
  have hlen : bytes.length = 32 := h
  calc bytes
    _ = bytes.take 8 ++ bytes.drop 8 := (List.take_append_drop 8 bytes).symm
    _ = bytes.take 8 ++ bytes.getD 8 0 :: bytes.getD 9 0 :: bytes.drop 10 := by
      rw [drop_getD (i := 8) (by omega), drop_getD (i := 9) (by omega)]
    _ = bytes.take 8 ++ bytes.getD 8 0 :: bytes.getD 9 0 :: ((bytes.drop 10).take 6 ++
          ((bytes.drop 16).take 8 ++ bytes.drop 24)) := by
      have h₁₀ : bytes.drop 10 = (bytes.drop 10).take 6 ++ bytes.drop 16 := drop_slice bytes 10 6
      have h₁₆ : bytes.drop 16 = (bytes.drop 16).take 8 ++ bytes.drop 24 := drop_slice bytes 16 8
      rw [← h₁₆, ← h₁₀]
    _ = _ := by
      rw [List.take_of_length_le (l := bytes.drop 24) (by rw [List.length_drop]; omega)]
      simp

/-- The limits that are read are those that would be written. -/
theorem decodeLimits_canonical {bytes : List UInt8} {limits : Limits}
    (hlen : bytes.length = generationOffset) (h : decodeLimits bytes = .ok limits) :
    (encode limits).take generationOffset = bytes := by
  have hlen' : bytes.length = 32 := hlen
  rw [decodeLimits] at h
  simp only at h
  split at h
  · exact absurd h (by simp)
  rename_i hform
  split at h
  · exact absurd h (by simp)
  rename_i hfields
  obtain rfl := Except.ok.inj h
  simp only [not_or, not_not] at hform hfields
  obtain ⟨hmagic, hlogical, hnames, hzero⟩ := hform
  have hsize₁ : ((bytes.drop 16).take 8).length = 8 := by
    rw [List.length_take, List.length_drop]
    omega
  have hsize₂ : ((bytes.drop 24).take 8).length = 8 := by
    rw [List.length_take, List.length_drop]
    omega
  obtain ⟨hflag₁, hfield₁⟩ := field_canonical hsize₁ hlogical hfields.1
  obtain ⟨hflag₂, hfield₂⟩ := field_canonical hsize₂ hnames hfields.2
  have hwhole : encode {
      logicalFileBytes := if bytes.getD 8 0 = 1
        then some (.ofNat (fromLeBytes ((bytes.drop 16).take 8))) else none
      namespaceEntries := if bytes.getD 9 0 = 1
        then some (.ofNat (fromLeBytes ((bytes.drop 24).take 8))) else none }
      = bytes ++ List.replicate 8 0 := by
    rw [encode]
    simp only
    rw [hflag₁, hflag₂, hfield₁, hfield₂, ← hmagic, ← hzero]
    exact congrArg (· ++ List.replicate 8 0) (split_limits hlen).symm
  rw [hwhole, List.take_left' hlen]

/-- **What is read is what would be written**: the limits, and the generation
over them. -/
theorem decode_canonical {bytes : List UInt8} {record : Record} (h : decode bytes = .ok record) :
    bytes.length = recordLen ∧ record.generation < u64Size ∧
      writeGeneration (encode record.limits) record.generation = bytes := by
  rw [decode] at h
  split at h
  · exact absurd h (by simp)
  rename_i hlen
  have hlen : bytes.length = recordLen := not_not.mp hlen
  have hlen' : bytes.length = 40 := hlen
  rcases hlimits : decodeLimits (bytes.take generationOffset) with e | limits
  · simp [hlimits, Except.map] at h
  rw [hlimits] at h
  obtain rfl := Except.ok.inj h
  have hfront : (bytes.take generationOffset).length = generationOffset := by
    rw [List.length_take, generationOffset]
    omega
  have hback : ((bytes.drop generationOffset).take 8).length = 8 := by
    rw [List.length_take, List.length_drop, generationOffset]
    omega
  refine ⟨hlen, fromLeBytes_eight hback, ?_⟩
  have hend : (encode limits).drop (generationOffset + 8) = [] := by
    refine List.drop_eq_nil_of_le ?_
    rw [(encode_slices limits).1]
    exact Nat.le_refl _
  rw [writeGeneration, decodeLimits_canonical hfront hlimits, toLeBytes_eight hback, hend,
    List.append_nil, List.take_of_length_le (l := bytes.drop generationOffset) (by
      rw [List.length_drop, generationOffset]
      omega), List.take_append_drop]

/-- There is one way to refuse a record. -/
theorem decode_error {bytes : List UInt8} {e : StorageError} (h : decode bytes = .error e) :
    e = .invalidPolicy := by
  have hlimits : ∀ {bytes e}, decodeLimits bytes = .error e → e = .invalidPolicy := by
    intro bytes e h
    rw [decodeLimits] at h
    simp only at h
    split at h
    · exact (Except.error.inj h).symm
    split at h
    · exact (Except.error.inj h).symm
    · exact absurd h (by simp)
  rw [decode] at h
  split at h
  · exact (Except.error.inj h).symm
  rcases hl : decodeLimits (bytes.take generationOffset) with e' | limits <;> rw [hl] at h
  · rw [← Except.error.inj h]
    exact hlimits hl
  · exact absurd h (by simp [Except.map])

/-- **The codec of the control record.**  A new record with any generations
written to it reads back, and every record that is read is of this form; all
other bytes are refused, so a state has one record. -/
theorem record_codec :
    (∀ (limits : Limits) (generations : List UInt64),
      decode (writeGenerations (encode limits) generations)
        = .ok ⟨limits, (generations.getLast?.getD 0).toNat⟩) ∧
    (∀ bytes record, decode bytes = .ok record → bytes.length = recordLen ∧
      writeGeneration (encode record.limits) record.generation = bytes) ∧
    (∀ bytes, (∀ (limits : Limits) (generation : UInt64),
      bytes ≠ writeGeneration (encode limits) generation.toNat) →
        decode bytes = .error .invalidPolicy) ∧
    (∀ a b record, decode a = .ok record → decode b = .ok record → a = b) ∧
    ∀ content record, readRecord content = .ok (some record) ↔ decode content = .ok record := by
  refine ⟨decode_generations, fun bytes record h => ?_, fun bytes hbytes => ?_,
    fun a b record ha hb => ?_, fun content record => ?_⟩
  · obtain ⟨hlen, -, hwrite⟩ := decode_canonical h
    exact ⟨hlen, hwrite⟩
  · rcases hdecode : decode bytes with e | record
    · rw [decode_error hdecode]
    · obtain ⟨-, hg, hwrite⟩ := decode_canonical hdecode
      refine absurd hwrite.symm ?_
      rw [← UInt64.toNat_ofNat_of_lt hg]
      exact hbytes record.limits (.ofNat record.generation)
  · exact (decode_canonical ha).2.2.symm.trans (decode_canonical hb).2.2
  · rw [readRecord_eq_some]
    exact ⟨fun h => h.2, fun h => ⟨(decode_canonical h).1, h⟩⟩

end StaticStorage
