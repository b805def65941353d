import Behavior.Proofs.StoredModels

/-!
Stored models have one form. Whatever a reader accepts is what the writer makes of the value that
was read, so a stored model that loads can be written again, byte for byte. This leaves out what
the format has several forms for: compressed payloads and debug maps, the field of the header that
nothing uses, and names that stand twice in the string table.
-/

namespace Behavior

variable {n : UInt16}

namespace LittleEndian

variable {w : Nat}
variable {k : Nat}

/-! ## Numbers -/

/-- The byte of a word that starts at a bit. -/
def byteAt {w : Nat} (n : BitVec w) (k : Nat) : BitVec 8 :=
  (n >>> k).setWidth 8

theorem byteAt_or (m n : BitVec w) (k : Nat) :
    byteAt (m ||| n) k = byteAt m k ||| byteAt n k := by
  rw [byteAt, BitVec.ushiftRight_or_distrib, BitVec.setWidth_or]
  rfl

/-- A byte that was moved to its place in a word is found there, and not in the other places. -/
theorem byteAt_place (b : BitVec 8) {j : Nat} (hw : k + 8 ≤ w) (h : j = k ∨ j + 8 ≤ k ∨ k + 8 ≤ j) :
    byteAt (b.setWidth w <<< j) k = if j = k then b else 0 := by
  apply BitVec.eq_of_getLsbD_eq
  intro i hi
  rw [byteAt, BitVec.getLsbD_setWidth, BitVec.getLsbD_ushiftRight, BitVec.getLsbD_shiftLeft,
    BitVec.getLsbD_setWidth]
  rcases h with rfl | h | h
  · have hplace : j + i < w := by omega
    have hbyte : i < w := by omega
    simp [hi, hplace, hbyte]
  · have hne : ¬ j = k := by omega
    rw [BitVec.getLsbD_of_ge b (k + i - j) (by omega), if_neg hne]
    simp
  · have hne : ¬ j = k := by omega
    have hlt : k + i < j := by omega
    simp [hne, hlt]

/-- The same for the byte that stays where it is. -/
theorem byteAt_lowest (b : BitVec 8) (hw : k + 8 ≤ w) (h : k = 0 ∨ 8 ≤ k) :
    byteAt (b.setWidth w) k = if 0 = k then b else 0 := by
  rw [← byteAt_place b hw (by omega), BitVec.shiftLeft_zero]

theorem encode16_join (a b : UInt8) : encode16 (a.toUInt16 ||| (b.toUInt16 <<< 8)) = [a, b] := by
  let n : BitVec 16 := a.toBitVec.setWidth 16 ||| b.toBitVec.setWidth 16 <<< 8
  show [UInt8.ofBitVec (byteAt n 0), UInt8.ofBitVec (byteAt n 8)] = [a, b]
  simp (disch := omega) [n, byteAt_or, byteAt_place, byteAt_lowest]

theorem encode32_join (a b c d : UInt8) :
    encode32 (a.toUInt32 ||| (b.toUInt32 <<< 8) ||| (c.toUInt32 <<< 16) ||| (d.toUInt32 <<< 24)) =
      [a, b, c, d] := by
  let n : BitVec 32 := a.toBitVec.setWidth 32 ||| b.toBitVec.setWidth 32 <<< 8 |||
    c.toBitVec.setWidth 32 <<< 16 ||| d.toBitVec.setWidth 32 <<< 24
  show [UInt8.ofBitVec (byteAt n 0), UInt8.ofBitVec (byteAt n 8), UInt8.ofBitVec (byteAt n 16),
    UInt8.ofBitVec (byteAt n 24)] = [a, b, c, d]
  simp (disch := omega) [n, byteAt_or, byteAt_place, byteAt_lowest]

theorem encode64_join (a b c d e f g h : UInt8) :
    encode64 (a.toUInt64 ||| (b.toUInt64 <<< 8) ||| (c.toUInt64 <<< 16) ||| (d.toUInt64 <<< 24) |||
      (e.toUInt64 <<< 32) ||| (f.toUInt64 <<< 40) ||| (g.toUInt64 <<< 48) |||
      (h.toUInt64 <<< 56)) = [a, b, c, d, e, f, g, h] := by
  let n : BitVec 64 := a.toBitVec.setWidth 64 ||| b.toBitVec.setWidth 64 <<< 8 |||
    c.toBitVec.setWidth 64 <<< 16 ||| d.toBitVec.setWidth 64 <<< 24 |||
    e.toBitVec.setWidth 64 <<< 32 ||| f.toBitVec.setWidth 64 <<< 40 |||
    g.toBitVec.setWidth 64 <<< 48 ||| h.toBitVec.setWidth 64 <<< 56
  show [UInt8.ofBitVec (byteAt n 0), UInt8.ofBitVec (byteAt n 8), UInt8.ofBitVec (byteAt n 16),
    UInt8.ofBitVec (byteAt n 24), UInt8.ofBitVec (byteAt n 32), UInt8.ofBitVec (byteAt n 40),
    UInt8.ofBitVec (byteAt n 48), UInt8.ofBitVec (byteAt n 56)] = [a, b, c, d, e, f, g, h]
  simp (disch := omega) [n, byteAt_or, byteAt_place, byteAt_lowest]

variable {bytes rest : List UInt8}

theorem eq_encode16 (h : decode16? bytes = some (n, rest)) : bytes = encode16 n ++ rest := by
  unfold decode16? at h
  split at h
  · cases h
    rw [encode16_join]
    rfl
  · cases h

theorem eq_encode32 {n : UInt32} (h : decode32? bytes = some (n, rest)) :
    bytes = encode32 n ++ rest := by
  unfold decode32? at h
  split at h
  · cases h
    rw [encode32_join]
    rfl
  · cases h

theorem eq_encode64 {n : UInt64} (h : decode64? bytes = some (n, rest)) :
    bytes = encode64 n ++ rest := by
  unfold decode64? at h
  split at h
  · cases h
    rw [encode64_join]
    rfl
  · cases h

end LittleEndian

/-- Bytes are determined by the text that they hold. -/
theorem toUTF8_of_fromUTF8? {bytes : ByteArray} {s : String}
    (h : String.fromUTF8? bytes = some s) : s.toUTF8 = bytes := by
  unfold String.fromUTF8? at h
  split at h
  · cases h
    rfl
  · cases h

theorem ValueType.tag_of_ofTag? {tag : UInt8} {t : ValueType} (h : ofTag? tag = some t) :
    t.tag = tag := by
  unfold ofTag? at h
  split at h <;> cases h <;> rfl

namespace Model

open LittleEndian

variable {s : Section} {bytes rest payload body : List UInt8} {α : Type} {count : Nat}
  {read : List UInt8 → Except LoadError (Read α)} {write : α → Except EncodeError (List UInt8)}
variable {sections : Sections} {flags : Flags} {front : List UInt8} {h : Header} {items : List α}
  {m : Model} {size : Nat}

theorem orTruncated_ok {r? : Option (α × List UInt8)} {r : Read α} (h : orTruncated s r? = .ok r) :
    r? = some r := by
  cases r? with
  | none => cases h
  | some r => cases h; rfl

theorem read8_ok {n : UInt8} (h : read8 s bytes = .ok (n, rest)) : bytes = n :: rest := by
  have h := orTruncated_ok h
  unfold decode8? at h
  split at h
  · cases h
    rfl
  · cases h

theorem read16_ok (h : read16 s bytes = .ok (n, rest)) : bytes = encode16 n ++ rest :=
  eq_encode16 (orTruncated_ok h)

theorem read32_ok {n : UInt32} (h : read32 s bytes = .ok (n, rest)) : bytes = encode32 n ++ rest :=
  eq_encode32 (orTruncated_ok h)

theorem read64_ok {n : UInt64} (h : read64 s bytes = .ok (n, rest)) : bytes = encode64 n ++ rest :=
  eq_encode64 (orTruncated_ok h)

theorem readBytes_ok (h : readBytes s count bytes = .ok (front, rest)) :
    bytes = front ++ rest ∧ front.length = count := by
  have h := orTruncated_ok h
  unfold take? at h
  dsimp only at h
  split at h
  · next hlength =>
    cases h
    exact ⟨(List.take_append_drop count bytes).symm, hlength⟩
  · cases h

theorem finish_ok (h : finish s bytes = .ok ()) : bytes = [] := by
  cases bytes with
  | nil => rfl
  | cons b rest => cases h

/-! ## Items and counts -/

/-- What a reader takes is what the writer makes of the value that it gives. -/
def Exact {α : Type} (read : List UInt8 → Except LoadError (Read α))
    (write : α → Except EncodeError (List UInt8)) : Prop :=
  ∀ bytes a rest, read bytes = .ok (a, rest) → ∃ front, write a = .ok front ∧ bytes = front ++ rest

theorem readItems_ok (hexact : Exact read write) {done : List α}
    (h : readItems read count done bytes = .ok (items, rest)) :
    ∃ new written, items = done.reverse ++ new ∧ new.length = count ∧
      new.mapM write = .ok written ∧ bytes = written.flatten ++ rest := by
  induction count generalizing done bytes with
  | zero =>
    cases h
    exact ⟨[], [], (List.append_nil _).symm, rfl, rfl, rfl⟩
  | succ count ih =>
    unfold readItems at h
    split at h
    · next item after hread =>
      obtain ⟨front, hfront, rfl⟩ := hexact _ _ _ hread
      obtain ⟨new, written, rfl, hlength, hwritten, rfl⟩ := ih h
      refine ⟨item :: new, front :: written, ?_, congrArg (· + 1) hlength, ?_, ?_⟩
      · rw [List.reverse_cons, List.append_assoc]
        rfl
      · rw [List.mapM_cons]
        exact bind_eq_ok.2 ⟨front, hfront, bind_eq_ok.2 ⟨written, hwritten, rfl⟩⟩
      · rw [List.flatten_cons, List.append_assoc]
    · cases h

theorem count16_toNat (what : String) (n : UInt16) : count16 what n.toNat = .ok (encode16 n) := by
  have hle : n.toNat ≤ 0xffff := Nat.le_of_lt_succ n.toNat_lt
  rw [count16, if_pos hle, Nat.toUInt16, UInt16.ofNat_toNat]

theorem count32_toNat (what : String) (n : UInt32) : count32 what n.toNat = .ok (encode32 n) := by
  have hle : n.toNat ≤ 0xffffffff := Nat.le_of_lt_succ n.toNat_lt
  rw [count32, if_pos hle, Nat.toUInt32, UInt32.ofNat_toNat]

theorem readCount_ok {least : Nat} (h : readCount s least bytes = .ok (count, rest)) :
    ∃ n : UInt32, count = n.toNat ∧ bytes = encode32 n ++ rest := by
  obtain ⟨⟨n, after⟩, hn, h⟩ := bind_eq_ok.1 h
  obtain ⟨-, h⟩ := ok_of_guard h
  cases h
  exact ⟨n, rfl, read32_ok hn⟩

theorem readTable_ok (hexact : Exact read write) (what : String)
    (h : readTable read bytes = .ok (items, rest)) :
    ∃ count written, count16 what items.length = .ok count ∧ items.mapM write = .ok written ∧
      bytes = count ++ written.flatten ++ rest := by
  obtain ⟨⟨n, after⟩, hn, h⟩ := bind_eq_ok.1 h
  obtain ⟨new, written, rfl, hlength, hwritten, rfl⟩ := readItems_ok hexact h
  refine ⟨encode16 n, written, ?_, hwritten, ?_⟩
  · rw [hlength]
    exact count16_toNat what n
  · rw [List.append_assoc]
    exact read16_ok hn

/-! ## Names -/

/-- Names are written as the indices that they are read from. -/
def Named (indexed : List (String × Nat)) (strings : Array String) : Prop :=
  ∀ (i : UInt32) name, strings[i.toNat]? = some name → nameIndex indexed name = .ok i

/-- Without repetitions, the last place of a name is the only one. -/
theorem named_zipIdx {strings : Array String} (hsize : strings.size ≤ 0xffffffff)
    (hnodup : strings.toList.Nodup) : Named strings.toList.zipIdx.reverse strings := by
  intro i name hi
  have hmem : (name, i.toNat) ∈ strings.toList.zipIdx.reverse := by
    rw [List.mem_reverse, List.mem_zipIdx_iff_getElem?]
    simpa using hi
  cases hk : nameIndex strings.toList.zipIdx.reverse name with
  | error e =>
    unfold nameIndex at hk
    split at hk
    · cases hk
    · next hnone =>
      have habsent := List.lookup_eq_none_iff.1 hnone _ hmem
      simp at habsent
  | ok k =>
    have hk := indexes_zipIdx hsize name k hk
    obtain ⟨hlt, hi⟩ := Array.getElem?_eq_some_iff.1 hi
    obtain ⟨hlt', hk⟩ := Array.getElem?_eq_some_iff.1 hk
    have hsame : strings.toList[i.toNat] = strings.toList[k.toNat] := by
      rw [Array.getElem_toList, Array.getElem_toList, hi, hk]
    rw [UInt32.toNat_inj.1 (hnodup.getElem_inj_iff.1 hsame)]

variable {indexed : List (String × Nat)} {strings : Array String}

theorem readName_ok {name : String} (hnamed : Named indexed strings)
    (h : readName s strings bytes = .ok (name, rest)) :
    ∃ i, nameIndex indexed name = .ok i ∧ bytes = encode32 i ++ rest := by
  obtain ⟨⟨i, after⟩, hi, h⟩ := bind_eq_ok.1 h
  dsimp only at h
  split at h
  · next name' hname =>
    cases h
    exact ⟨i, hnamed i name hname, read32_ok hi⟩
  · cases h

theorem readType_ok {type : ValueType} (h : readType bytes = .ok (type, rest)) :
    bytes = type.tag :: rest := by
  obtain ⟨⟨tag, after⟩, htag, h⟩ := bind_eq_ok.1 h
  dsimp only at h
  split at h
  · next type' htype =>
    cases h
    rw [read8_ok htag, ValueType.tag_of_ofTag? htype]
  · cases h

/-! ## Sections -/

theorem readEntry_exact (hnamed : Named indexed strings) :
    Exact (readEntry strings) (encodeEntry indexed) := by
  intro bytes e rest h
  obtain ⟨⟨name, afterName⟩, hname, h⟩ := bind_eq_ok.1 h
  obtain ⟨⟨type, afterType⟩, htype, h⟩ := bind_eq_ok.1 h
  obtain ⟨⟨slot, afterSlot⟩, hslot, h⟩ := bind_eq_ok.1 h
  cases h
  obtain ⟨i, hi, rfl⟩ := readName_ok hnamed hname
  refine ⟨_, bind_eq_ok.2 ⟨i, hi, rfl⟩, ?_⟩
  rw [readType_ok htype, read16_ok hslot, List.append_assoc, List.cons_append]

theorem readChannel_exact (hnamed : Named indexed strings) :
    Exact (readChannel strings) (encodeChannel indexed) := by
  intro bytes c rest h
  obtain ⟨⟨name, afterName⟩, hname, h⟩ := bind_eq_ok.1 h
  obtain ⟨⟨valueSlot, afterValue⟩, hvalue, h⟩ := bind_eq_ok.1 h
  obtain ⟨⟨type, afterType⟩, htype, h⟩ := bind_eq_ok.1 h
  obtain ⟨⟨urgencySlot, afterUrgency⟩, hurgency, h⟩ := bind_eq_ok.1 h
  cases h
  obtain ⟨i, hi, rfl⟩ := readName_ok hnamed hname
  refine ⟨_, bind_eq_ok.2 ⟨i, hi, rfl⟩, ?_⟩
  rw [read16_ok hvalue, readType_ok htype, read16_ok hurgency]
  simp only [List.append_assoc, List.cons_append]

theorem readPoint_exact (hnamed : Named indexed strings) :
    Exact (readPoint strings) (encodePoint indexed) := by
  intro bytes p rest h
  obtain ⟨⟨hash, afterHash⟩, hhash, h⟩ := bind_eq_ok.1 h
  obtain ⟨⟨name, afterName⟩, hname, h⟩ := bind_eq_ok.1 h
  obtain ⟨⟨timeout, afterTimeout⟩, htimeout, h⟩ := bind_eq_ok.1 h
  obtain ⟨⟨default, afterDefault⟩, hdefault, h⟩ := bind_eq_ok.1 h
  obtain ⟨⟨offset, afterOffset⟩, hoffset, h⟩ := bind_eq_ok.1 h
  cases h
  obtain ⟨i, hi, rfl⟩ := readName_ok hnamed hname
  refine ⟨_, bind_eq_ok.2 ⟨i, hi, rfl⟩, ?_⟩
  rw [read32_ok hhash, read32_ok htimeout, read32_ok hdefault, read32_ok hoffset]
  simp only [List.append_assoc]

theorem readConstant_exact : Exact readConstant fun c => .ok (encode64 c.bits) := by
  intro bytes c rest h
  obtain ⟨⟨bits, after⟩, hbits, h⟩ := map_eq_ok.1 h
  cases h
  exact ⟨_, rfl, read64_ok hbits⟩

theorem decodeSchema_ok (hnamed : Named indexed strings) {schema : Schema}
    (h : decodeSchema strings bytes = .ok schema) : encodeSchema indexed schema = .ok bytes := by
  obtain ⟨⟨inputs, afterInputs⟩, hinputs, h⟩ := bind_eq_ok.1 h
  obtain ⟨⟨outputs, afterOutputs⟩, houtputs, h⟩ := bind_eq_ok.1 h
  obtain ⟨⟨channels, after⟩, hchannels, h⟩ := bind_eq_ok.1 h
  obtain ⟨⟨⟩, hfinish, h⟩ := bind_eq_ok.1 h
  cases h
  obtain rfl := finish_ok hfinish
  obtain ⟨channelCount, channelRows, hcount₃, hrows₃, rfl⟩ :=
    readTable_ok (readChannel_exact hnamed) "channels" hchannels
  obtain ⟨outputCount, outputRows, hcount₂, hrows₂, rfl⟩ :=
    readTable_ok (readEntry_exact hnamed) "schema" houtputs
  obtain ⟨inputCount, inputRows, hcount₁, hrows₁, rfl⟩ :=
    readTable_ok (readEntry_exact hnamed) "schema" hinputs
  refine bind_eq_ok.2 ⟨_, bind_eq_ok.2 ⟨_, hcount₁, bind_eq_ok.2 ⟨_, hrows₁, rfl⟩⟩,
    bind_eq_ok.2 ⟨_, bind_eq_ok.2 ⟨_, hcount₂, bind_eq_ok.2 ⟨_, hrows₂, rfl⟩⟩,
      bind_eq_ok.2 ⟨_, hcount₃, bind_eq_ok.2 ⟨_, hrows₃, ?_⟩⟩⟩⟩
  simp only [List.append_assoc, List.append_nil]
  rfl

theorem decodePoints_ok (hnamed : Named indexed strings) {points : Array ContinuationPoint}
    (h : decodePoints strings bytes = .ok points) :
    encodePoints indexed points.toList = .ok bytes := by
  obtain ⟨⟨count, afterCount⟩, hcount, h⟩ := bind_eq_ok.1 h
  obtain ⟨⟨items, after⟩, hitems, h⟩ := bind_eq_ok.1 h
  obtain ⟨⟨⟩, hfinish, h⟩ := bind_eq_ok.1 h
  cases h
  obtain rfl := finish_ok hfinish
  obtain ⟨n, rfl, rfl⟩ := readCount_ok hcount
  obtain ⟨new, written, rfl, hlength, hwritten, rfl⟩ := readItems_ok (readPoint_exact hnamed) hitems
  refine bind_eq_ok.2 ⟨encode32 n, ?_, bind_eq_ok.2 ⟨written, hwritten, ?_⟩⟩
  · rw [List.toList_toArray, hlength]
    exact count32_toNat _ n
  · rw [List.append_nil]
    rfl

theorem decodeConstants_ok {constants : Array Constant}
    (h : decodeConstants bytes = .ok constants) :
    encodeConstants constants.toList = .ok bytes := by
  obtain ⟨⟨count, afterCount⟩, hcount, h⟩ := bind_eq_ok.1 h
  obtain ⟨⟨items, after⟩, hitems, h⟩ := bind_eq_ok.1 h
  obtain ⟨⟨⟩, hfinish, h⟩ := bind_eq_ok.1 h
  cases h
  obtain rfl := finish_ok hfinish
  obtain ⟨n, rfl, rfl⟩ := readCount_ok hcount
  obtain ⟨new, written, rfl, hlength, hwritten, rfl⟩ := readItems_ok readConstant_exact hitems
  have hflat : written = items.map fun c => encode64 c.bits :=
    Except.ok.inj (hwritten.symm.trans List.mapM_pure)
  refine bind_eq_ok.2 ⟨encode32 n, ?_, ?_⟩
  · rw [List.toList_toArray, hlength]
    exact count32_toNat _ n
  · rw [List.append_nil, hflat, ← List.flatMap_def]
    rfl

theorem readStrings_ok {index : Nat} {done texts : Array String}
    (h : readStrings index count done bytes = .ok (texts, rest)) :
    ∃ (new : List String) (written : List (List UInt8)), texts = done ++ new.toArray ∧
      new.length = count ∧ new.mapM encodeString = .ok written ∧
      bytes = written.flatten ++ rest := by
  induction count generalizing index done bytes with
  | zero =>
    cases h
    exact ⟨[], [], Array.append_empty.symm, rfl, rfl, rfl⟩
  | succ count ih =>
    unfold readStrings at h
    split at h
    · cases h
    · next size afterSize hsize =>
      split at h
      · cases h
      · next text afterText htext =>
        split at h
        · cases h
        · next s hs =>
          obtain ⟨rfl, hlength⟩ := readBytes_ok htext
          obtain ⟨new, written, rfl, hcount, hwritten, rfl⟩ := ih h
          have htext : s.toUTF8.data.toList = text := by
            rw [toUTF8_of_fromUTF8? hs]
          have hfront : encodeString s = .ok (encode32 size ++ text) := by
            refine bind_eq_ok.2 ⟨encode32 size, ?_, ?_⟩
            · rw [htext, hlength]
              exact count32_toNat _ size
            · rw [htext]
              rfl
          refine ⟨s :: new, (encode32 size ++ text) :: written, ?_, congrArg (· + 1) hcount, ?_, ?_⟩
          · simp
          · rw [List.mapM_cons]
            exact bind_eq_ok.2 ⟨_, hfront, bind_eq_ok.2 ⟨written, hwritten, rfl⟩⟩
          · rw [read32_ok hsize, List.flatten_cons, List.append_assoc, List.append_assoc]

theorem decodeStrings_ok (h : decodeStrings bytes = .ok strings) :
    encodeStrings strings.toList = .ok bytes := by
  obtain ⟨⟨count, afterCount⟩, hcount, h⟩ := bind_eq_ok.1 h
  obtain ⟨⟨texts, after⟩, htexts, h⟩ := bind_eq_ok.1 h
  obtain ⟨⟨⟩, hfinish, h⟩ := bind_eq_ok.1 h
  cases h
  obtain rfl := finish_ok hfinish
  obtain ⟨n, rfl, rfl⟩ := readCount_ok hcount
  obtain ⟨new, written, rfl, hlength, hwritten, rfl⟩ := readStrings_ok htexts
  rw [Array.empty_append, List.toList_toArray]
  refine bind_eq_ok.2 ⟨encode32 n, ?_, bind_eq_ok.2 ⟨written, hwritten, ?_⟩⟩
  · rw [hlength]
    exact count32_toNat _ n
  · rw [List.append_nil]
    rfl

/-- Words take up all bytes if there is a whole number of them. -/
theorem readWords_ok (done : Array Word) {bytes : List UInt8} (h : bytes.length % 4 = 0) :
    ∃ words : List Word, readWords done bytes = done ++ words.toArray ∧
      bytes = words.flatMap encode32 := by
  fun_induction readWords done bytes with
  | case1 done a b c d rest ih =>
    obtain ⟨words, hwords, hbytes⟩ := ih (by simp only [List.length_cons] at h; omega)
    refine ⟨(a.toUInt32 ||| (b.toUInt32 <<< 8) ||| (c.toUInt32 <<< 16) ||| (d.toUInt32 <<< 24)) ::
      words, ?_, ?_⟩
    · rw [hwords]
      simp
    · rw [List.flatMap_cons, encode32_join, ← hbytes]
      rfl
  | case2 bytes done hshort =>
    cases bytes with
    | nil => exact ⟨[], Array.append_empty.symm, rfl⟩
    | cons a bytes =>
      exfalso
      rcases bytes with _ | ⟨b, _ | ⟨c, _ | ⟨d, rest⟩⟩⟩
      · simp at h
      · simp at h
      · simp at h
      · exact hshort a b c d rest rfl

theorem decodeCode_ok {code : Array Word} (h : decodeCode bytes = .ok code) :
    encodeCode code.toList = bytes := by
  unfold decodeCode at h
  split at h
  · next hlength =>
    cases h
    obtain ⟨words, hwords, hbytes⟩ := readWords_ok #[] hlength
    rw [hwords, Array.empty_append, List.toList_toArray, encodeCode, ← hbytes]
  · cases h

theorem decodeDebug_ok {debug? : Option DebugMap} (hflag : flags.contains .debugInfo = false)
    (h : decodeDebug flags bytes = .ok debug?) : debug? = none ∧ bytes = [] := by
  rw [decodeDebug, hflag, if_neg Bool.false_ne_true] at h
  split at h
  · next hempty =>
    cases h
    exact ⟨rfl, List.isEmpty_iff.1 hempty⟩
  · cases h

/-! ## Payloads -/

theorem readSectionSize_ok {whole expected : Nat}
    (h : readSectionSize s whole expected bytes = .ok (size, rest)) :
    expected ≤ 0xffffffff ∧ size ≤ 0xffffffff ∧ expected + size ≤ whole ∧
      bytes = encode32 expected.toUInt32 ++ (encode32 size.toUInt32 ++ rest) := by
  obtain ⟨⟨offset, afterOffset⟩, hoffset, h⟩ := bind_eq_ok.1 h
  obtain ⟨⟨n, after⟩, hn, h⟩ := bind_eq_ok.1 h
  obtain ⟨hplaced, h⟩ := ok_of_guard h
  cases h
  rw [not_or, not_not] at hplaced
  obtain ⟨rfl, hwhole⟩ := hplaced
  refine ⟨Nat.le_of_lt_succ offset.toNat_lt, Nat.le_of_lt_succ n.toNat_lt, Nat.le_of_not_lt hwhole,
    ?_⟩
  simp only [Nat.toUInt32, UInt32.ofNat_toNat]
  rw [← read32_ok hn]
  exact read32_ok hoffset

theorem encodeTable_cons {offset : Nat} {first : List UInt8} {others : List (List UInt8)}
    {rows : List UInt8} (hoffset : offset ≤ 0xffffffff) (hfirst : first.length ≤ 0xffffffff)
    (hrows : encodeTable (offset + first.length) others = .ok rows) :
    encodeTable offset (first :: others) =
      .ok (encode32 offset.toUInt32 ++ (encode32 first.length.toUInt32 ++ rows)) := by
  rw [← List.append_assoc]
  exact bind_eq_ok.2 ⟨_, if_pos hoffset, bind_eq_ok.2 ⟨_, if_pos hfirst,
    bind_eq_ok.2 ⟨_, hrows, rfl⟩⟩⟩

theorem splitAt_eq (n : Nat) (bytes : List UInt8) (h : n ≤ bytes.length) :
    ∃ front rest, bytes.splitAt n = (front, rest) ∧ bytes = front ++ rest ∧ front.length = n := by
  refine ⟨bytes.take n, bytes.drop n, List.splitAt_eq, (List.take_append_drop n bytes).symm, ?_⟩
  rw [List.length_take, Nat.min_eq_left h]

/-- The contents of a payload's sections, in order. -/
def Sections.toList (s : Sections) : List (List UInt8) :=
  [s.schema, s.points, s.constants, s.strings, s.code, s.debug]

/-- A payload is its table followed by its sections. -/
theorem splitSections_ok (h : splitSections payload = .ok sections) :
    ∃ table, encodeTable Stored.tableSize sections.toList = .ok table ∧
      payload = table ++ sections.toList.flatten := by
  obtain ⟨⟨schemaSize, rows₁⟩, h₁, h⟩ := bind_eq_ok.1 h
  obtain ⟨⟨pointsSize, rows₂⟩, h₂, h⟩ := bind_eq_ok.1 h
  obtain ⟨⟨constantsSize, rows₃⟩, h₃, h⟩ := bind_eq_ok.1 h
  obtain ⟨⟨stringsSize, rows₄⟩, h₄, h⟩ := bind_eq_ok.1 h
  obtain ⟨⟨codeSize, rows₅⟩, h₅, h⟩ := bind_eq_ok.1 h
  obtain ⟨⟨debugSize, body⟩, h₆, h⟩ := bind_eq_ok.1 h
  obtain ⟨hwhole, hsections⟩ := ok_of_guard h
  have hwhole := not_not.1 hwhole
  obtain ⟨ho₁, hs₁, -, hpayload⟩ := readSectionSize_ok h₁
  obtain ⟨ho₂, hs₂, -, rfl⟩ := readSectionSize_ok h₂
  obtain ⟨ho₃, hs₃, -, rfl⟩ := readSectionSize_ok h₃
  obtain ⟨ho₄, hs₄, -, rfl⟩ := readSectionSize_ok h₄
  obtain ⟨ho₅, hs₅, -, rfl⟩ := readSectionSize_ok h₅
  obtain ⟨ho₆, hs₆, -, rfl⟩ := readSectionSize_ok h₆
  have hbody : payload.drop Stored.tableSize = body := by
    rw [hpayload]
    rfl
  have hlength : body.length =
      schemaSize + pointsSize + constantsSize + stringsSize + codeSize + debugSize := by
    rw [← hbody, List.length_drop, ← hwhole]
    omega
  rw [hbody] at hsections
  obtain ⟨schema, rest₁, hsplit₁, rfl, rfl⟩ := splitAt_eq schemaSize body (by omega)
  rw [List.length_append] at hlength
  obtain ⟨points, rest₂, hsplit₂, rfl, rfl⟩ := splitAt_eq pointsSize rest₁ (by omega)
  rw [List.length_append] at hlength
  obtain ⟨constants, rest₃, hsplit₃, rfl, rfl⟩ := splitAt_eq constantsSize rest₂ (by omega)
  rw [List.length_append] at hlength
  obtain ⟨strings, rest₄, hsplit₄, rfl, rfl⟩ := splitAt_eq stringsSize rest₃ (by omega)
  rw [List.length_append] at hlength
  obtain ⟨code, debug, hsplit₅, rfl, rfl⟩ := splitAt_eq codeSize rest₄ (by omega)
  rw [List.length_append] at hlength
  obtain rfl : debugSize = debug.length := by omega
  simp only [hsplit₁, hsplit₂, hsplit₃, hsplit₄, hsplit₅] at hsections
  cases hsections
  refine ⟨_, encodeTable_cons ho₁ hs₁ (encodeTable_cons ho₂ hs₂ (encodeTable_cons ho₃ hs₃
    (encodeTable_cons ho₄ hs₄ (encodeTable_cons ho₅ hs₅ (encodeTable_cons ho₆ hs₆ rfl))))), ?_⟩
  rw [hpayload]
  simp only [Sections.toList, List.flatten_cons, List.flatten_nil, List.append_assoc,
    List.append_nil]

/-! ## Whole models -/

/-- What is left of a header when its fields are taken away: two bytes that nothing uses. -/
def reserved (bytes : List UInt8) : List UInt8 :=
  (bytes.take Stored.headerSize).drop (Stored.headerSize - 2)

theorem reserved_append {field : List UInt8} (hfront : front.length = 66)
    (hfield : field.length = 2) : reserved (front ++ (field ++ body)) = field := by
  have hsize : Stored.headerSize = (front ++ field).length := by
    rw [List.length_append, hfront, hfield]
    rfl
  rw [← List.append_assoc, reserved, hsize, List.take_left]
  exact List.drop_left' (by rw [List.length_append, hfield, Nat.add_sub_cancel])

/-- A header is what would be written for its fields, apart from the reserved bytes. -/
theorem decodeHeader_ok (hread : decodeHeader bytes = .ok (h, body))
    (hreserved : reserved bytes = encode16 0) :
    ∃ storedSize rawSize : UInt32, h.storedSize = storedSize.toNat ∧ h.rawSize = rawSize.toNat ∧
      bytes = Stored.magic ++ encode16 h.version ++ encode16 h.flags.bits ++ encode64 h.id.value ++
        encode16 h.maxStack ++ encode16 h.maxCallDepth ++ encode16 h.localCount ++
        encode32 h.entry ++ encode32 storedSize ++ encode32 rawSize ++ h.digest ++ encode16 0 ++
        body := by
  obtain ⟨⟨start, after⟩, hstart, hread⟩ := bind_eq_ok.1 hread
  obtain ⟨hmagic, hread⟩ := ok_of_guard hread
  obtain ⟨⟨version, after₁⟩, hversion, hread⟩ := bind_eq_ok.1 hread
  obtain ⟨-, hread⟩ := ok_of_guard hread
  obtain ⟨⟨flags, after₂⟩, hflags, hread⟩ := bind_eq_ok.1 hread
  obtain ⟨-, hread⟩ := ok_of_guard hread
  obtain ⟨⟨id, after₃⟩, hid, hread⟩ := bind_eq_ok.1 hread
  obtain ⟨⟨maxStack, after₄⟩, hmaxStack, hread⟩ := bind_eq_ok.1 hread
  obtain ⟨⟨maxCallDepth, after₅⟩, hmaxCallDepth, hread⟩ := bind_eq_ok.1 hread
  obtain ⟨⟨localCount, after₆⟩, hlocalCount, hread⟩ := bind_eq_ok.1 hread
  obtain ⟨⟨entry, after₇⟩, hentry, hread⟩ := bind_eq_ok.1 hread
  obtain ⟨⟨storedSize, after₈⟩, hstoredSize, hread⟩ := bind_eq_ok.1 hread
  obtain ⟨⟨rawSize, after₉⟩, hrawSize, hread⟩ := bind_eq_ok.1 hread
  obtain ⟨⟨digest, after₁₀⟩, hdigest, hread⟩ := bind_eq_ok.1 hread
  obtain ⟨⟨unused, after₁₁⟩, hunused, hread⟩ := bind_eq_ok.1 hread
  cases hread
  obtain ⟨rfl, -⟩ := readBytes_ok hstart
  obtain rfl := not_not.1 hmagic
  obtain ⟨rfl, hlength⟩ := readBytes_ok hdigest
  obtain rfl := read16_ok hunused
  obtain rfl := read32_ok hrawSize
  obtain rfl := read32_ok hstoredSize
  obtain rfl := read32_ok hentry
  obtain rfl := read16_ok hlocalCount
  obtain rfl := read16_ok hmaxCallDepth
  obtain rfl := read16_ok hmaxStack
  obtain rfl := read64_ok hid
  obtain rfl := read16_ok hflags
  obtain rfl := read16_ok hversion
  refine ⟨storedSize, rawSize, rfl, rfl, ?_⟩
  let front := Stored.magic ++ encode16 version ++ encode16 flags ++ encode64 id ++
    encode16 maxStack ++ encode16 maxCallDepth ++ encode16 localCount ++ encode32 entry ++
    encode32 storedSize ++ encode32 rawSize ++ digest
  have hfront : front.length = 66 := by
    rw [List.length_append, hlength]
    rfl
  have hfield : reserved (front ++ (encode16 unused ++ body)) = encode16 unused :=
    reserved_append hfront rfl
  have hunused : encode16 unused = encode16 0 := by
    simp only [front, List.append_assoc] at hfield
    exact hfield.symm.trans hreserved
  simp only [List.append_assoc, hunused]

theorem decodeAttachment_ok {a : Attachment} (h : decodeAttachment bytes = .ok (a, rest)) :
    bytes = encodeAttachment (some a) ++ rest := by
  obtain ⟨⟨parent, after⟩, hparent, h⟩ := bind_eq_ok.1 h
  obtain ⟨⟨hash, after'⟩, hhash, h⟩ := bind_eq_ok.1 h
  cases h
  rw [read64_ok hparent, read32_ok hhash, encodeAttachment, List.append_assoc]

theorem decompress_ok (hflag : h.flags.contains .compressed = false) {stored : List UInt8}
    (hpayload : decompress codec h stored = .ok payload) :
    payload = stored ∧ payload.length = h.rawSize := by
  unfold decompress at hpayload
  obtain ⟨-, hpayload⟩ := ok_of_guard hpayload
  rw [hflag, if_neg Bool.false_ne_true] at hpayload
  obtain ⟨_, ⟨⟩, hpayload⟩ := bind_eq_ok.1 hpayload
  obtain ⟨hlength, hpayload⟩ := ok_of_guard hpayload
  cases hpayload
  exact ⟨rfl, not_not.1 hlength⟩

/-- The sections of a payload are what would be written for the parts read from them. -/
theorem encodePayload_of_sections (hsections : splitSections payload = .ok sections)
    (hstrings : decodeStrings sections.strings = .ok m.strings)
    (hschema : decodeSchema m.strings sections.schema = .ok m.schema)
    (hpoints : decodePoints m.strings sections.points = .ok m.points)
    (hconstants : decodeConstants sections.constants = .ok m.constants)
    (hcode : decodeCode sections.code = .ok m.code)
    (hdebug : decodeDebug m.flags sections.debug = .ok m.debug?)
    (hflag : m.flags.contains .debugInfo = false) (hnodup : m.strings.toList.Nodup) :
    m.encodePayload = .ok payload := by
  have hstrings := decodeStrings_ok hstrings
  have hnamed := named_zipIdx (decodeStrings_encodeStrings hstrings).2 hnodup
  obtain ⟨hnone, hempty⟩ := decodeDebug_ok hflag hdebug
  obtain ⟨table, htable, rfl⟩ := splitSections_ok hsections
  have hlist : sections.toList = [sections.schema, sections.points, sections.constants,
      sections.strings, encodeCode m.code.toList, encodeDebug m.debug?] := by
    rw [decodeCode_ok hcode, hnone, Sections.toList, hempty]
    rfl
  rw [hlist] at htable ⊢
  exact bind_eq_ok.2 ⟨_, decodeSchema_ok hnamed hschema,
    bind_eq_ok.2 ⟨_, decodePoints_ok hnamed hpoints,
      bind_eq_ok.2 ⟨_, decodeConstants_ok hconstants,
        bind_eq_ok.2 ⟨_, hstrings, bind_eq_ok.2 ⟨table, htable, rfl⟩⟩⟩⟩⟩

/-- The body of a stored model is its extension header, if the flags announce one, and the stored
payload. -/
theorem decodeBody_ok {a : α} {k : Read (Option Attachment) → Except LoadError α}
    (h : (if flags.contains .isExtension then
      if size < Stored.headerSize + Stored.extensionHeaderSize then throw (.tooShort size) >>= k
      else ((decodeAttachment body).map fun (a, rest) => (some a, rest)) >>= k
    else pure (none, body) >>= k) = .ok a) :
    ∃ extends? stored, body = encodeAttachment extends? ++ stored ∧ k (extends?, stored) = .ok a := by
  split at h
  · split at h
    · cases h
    · obtain ⟨r, hr, h⟩ := bind_eq_ok.1 h
      obtain ⟨⟨a, stored⟩, hbody, rfl⟩ := map_eq_ok.1 hr
      exact ⟨some a, stored, decodeAttachment_ok hbody, h⟩
  · exact ⟨none, body, rfl, h⟩

theorem decode_ok (h : decode codec bytes = .ok m)
    (hcompressed : m.flags.contains .compressed = false)
    (hreserved : reserved bytes = encode16 0) :
    ∃ payload sections, splitSections payload = .ok sections ∧
      decodeStrings sections.strings = .ok m.strings ∧
      decodeSchema m.strings sections.schema = .ok m.schema ∧
      decodePoints m.strings sections.points = .ok m.points ∧
      decodeConstants sections.constants = .ok m.constants ∧
      decodeCode sections.code = .ok m.code ∧ decodeDebug m.flags sections.debug = .ok m.debug? ∧
      payload.length ≤ 0xffffffff ∧
      bytes = Stored.magic ++ encode16 m.version ++ encode16 m.flags.bits ++ encode64 m.id.value ++
        encode16 m.maxStack ++ encode16 m.maxCallDepth ++ encode16 m.localCount ++
        encode32 m.entry ++ encode32 payload.length.toUInt32 ++ encode32 payload.length.toUInt32 ++
        Sha256.digest (encodeAttachment m.extends? ++ payload) ++ encode16 0 ++
        (encodeAttachment m.extends? ++ payload) := by
  unfold decode at h
  obtain ⟨-, h⟩ := ok_of_guard h
  obtain ⟨⟨header, body⟩, hheader, h⟩ := bind_eq_ok.1 h
  obtain ⟨extends?, stored, rfl, h⟩ := decodeBody_ok h
  obtain ⟨hstored, h⟩ := ok_of_guard h
  obtain ⟨hdigest, h⟩ := ok_of_guard h
  obtain ⟨payload, hpayload, h⟩ := bind_eq_ok.1 h
  obtain ⟨sections, hsections, h⟩ := bind_eq_ok.1 h
  obtain ⟨strings, hstrings, h⟩ := bind_eq_ok.1 h
  obtain ⟨schema, hschema, h⟩ := bind_eq_ok.1 h
  obtain ⟨points, hpoints, h⟩ := bind_eq_ok.1 h
  obtain ⟨constants, hconstants, h⟩ := bind_eq_ok.1 h
  obtain ⟨code, hcode, h⟩ := bind_eq_ok.1 h
  obtain ⟨debug?, hdebug, h⟩ := bind_eq_ok.1 h
  cases h
  obtain ⟨rfl, hraw⟩ := decompress_ok hcompressed hpayload
  obtain ⟨storedSize, rawSize, hstoredSize, hrawSize, hbytes⟩ := decodeHeader_ok hheader hreserved
  have hrawWord : payload.length.toUInt32 = rawSize := by
    rw [hraw, hrawSize, Nat.toUInt32, UInt32.ofNat_toNat]
  have hstoredWord : payload.length.toUInt32 = storedSize := by
    rw [not_not.1 hstored, hstoredSize, Nat.toUInt32, UInt32.ofNat_toNat]
  refine ⟨payload, sections, hsections, hstrings, hschema, hpoints, hconstants, hcode, hdebug, ?_, ?_⟩
  · rw [hraw, hrawSize]
    exact Nat.le_of_lt_succ rawSize.toNat_lt
  · rw [← hstoredWord, ← hrawWord, ← not_not.1 hdigest] at hbytes
    exact hbytes

/-- A stored model that loads is what is written for the model, provided that it is not compressed,
has no debug map, leaves the reserved bytes at zero and has no string twice. -/
theorem encode_of_load {codec : Codec} {bytes : List UInt8} {m : Model}
    (h : load codec bytes = .ok m)
    (hcompressed : m.flags.contains .compressed = false)
    (hdebug : m.flags.contains .debugInfo = false) (hreserved : reserved bytes = [0, 0])
    (hnodup : m.strings.toList.Nodup) : m.encode codec = .ok bytes := by
  obtain ⟨m', h, hcheck⟩ := bind_eq_ok.1 h
  obtain ⟨⟨⟩, -, hcheck⟩ := bind_eq_ok.1 hcheck
  cases hcheck
  obtain ⟨payload, sections, hsections, hstrings, hschema, hpoints, hconstants, hcode, hmap, hsize,
    hbytes⟩ := decode_ok h hcompressed hreserved
  have hpayload := encodePayload_of_sections hsections hstrings hschema hpoints hconstants hcode
    hmap hdebug hnodup
  have hstored : storePayload codec m.flags payload = .ok payload :=
    if_neg (ne_true_of_eq_false hcompressed)
  rw [hbytes]
  exact bind_eq_ok.2 ⟨payload, hpayload, bind_eq_ok.2 ⟨_, if_pos hsize, bind_eq_ok.2 ⟨_, hstored,
    bind_eq_ok.2 ⟨_, if_pos hsize, rfl⟩⟩⟩⟩

/-- An extension with a continuation point and no name twice, to be stored as it is. -/
def resumingPlain : Model :=
  { resuming with
    flags := Flags.continuationPoints.insert .isExtension
    strings := #["y", "x", "p", "c"]
    debug? := none }

def resumingPlainBytes : List UInt8 :=
  [67, 68, 78, 67, 1, 0, 12, 0, 2, 0, 0, 0, 0, 0, 0, 0, 1, 0, 0, 0, 0, 0, 0, 0, 0, 0, 153, 0, 0,
    0, 153, 0, 0, 0, 136, 225, 70, 254, 210, 248, 192, 165, 115, 67, 15, 161, 182, 29, 247, 120,
    12, 144, 116, 13, 62, 79, 197, 106, 24, 9, 129, 228, 95, 43, 92, 224, 0, 0, 1, 0, 0, 0, 0, 0,
    0, 0, 92, 66, 12, 244, 48, 0, 0, 0, 29, 0, 0, 0, 77, 0, 0, 0, 24, 0, 0, 0, 101, 0, 0, 0, 12, 0,
    0, 0, 113, 0, 0, 0, 24, 0, 0, 0, 137, 0, 0, 0, 16, 0, 0, 0, 153, 0, 0, 0, 0, 0, 0, 0, 1, 0, 1,
    0, 0, 0, 0, 3, 0, 1, 0, 0, 0, 0, 0, 0, 1, 0, 1, 0, 3, 0, 0, 0, 4, 0, 0, 5, 0, 1, 0, 0, 0, 239,
    67, 12, 245, 2, 0, 0, 0, 10, 0, 0, 0, 3, 0, 0, 0, 2, 0, 0, 0, 1, 0, 0, 0, 1, 0, 0, 0, 0, 0, 0,
    0, 4, 0, 0, 0, 1, 0, 0, 0, 121, 1, 0, 0, 0, 120, 1, 0, 0, 0, 112, 1, 0, 0, 0, 99, 3, 0, 0, 10,
    1, 0, 0, 13, 0, 0, 0, 71, 0, 0, 0, 55]

theorem encode_of_load_resumingPlain :
    load resumingCodec resumingPlainBytes = .ok resumingPlain ∧
      resumingPlain.encode resumingCodec = .ok resumingPlainBytes := by
  have hload : load resumingCodec resumingPlainBytes = .ok resumingPlain := by decide +kernel
  exact ⟨hload, encode_of_load hload (by decide) (by decide) (by decide) (by decide)⟩

end Model

end Behavior
