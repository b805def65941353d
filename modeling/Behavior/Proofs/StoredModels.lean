import Behavior.Proofs.ByteReaders
import Behavior.Proofs.MessagePackReaders

/-!
Loading a stored model gives back the model that was stored.
-/

namespace Behavior.Model

open LittleEndian

variable {n offset : Nat} {what : String} {bytes table raw : List UInt8} {s : Section} {α : Type}
  {written sections : List (List UInt8)} {m : Model}
variable {items : List α} {flags : Flags} {least size : Nat} {codec : Codec} {stored : List UInt8}

/-! ## Counts and names -/

theorem toNat_toUInt16 (h : n ≤ 0xffff) : n.toUInt16.toNat = n := by
  rw [Nat.toUInt16, UInt16.toNat_ofNat', Nat.mod_eq_of_lt (by omega)]

theorem toNat_toUInt32 (h : n ≤ 0xffffffff) : n.toUInt32.toNat = n := by
  rw [Nat.toUInt32, UInt32.toNat_ofNat', Nat.mod_eq_of_lt (by omega)]

theorem count16_ok (h : count16 what n = .ok bytes) :
    n ≤ 0xffff ∧ bytes = encode16 n.toUInt16 := by
  unfold count16 at h
  split at h
  · next hn =>
    cases h
    exact ⟨hn, rfl⟩
  · cases h

theorem count32_ok (h : count32 what n = .ok bytes) :
    n ≤ 0xffffffff ∧ bytes = encode32 n.toUInt32 := by
  unfold count32 at h
  split at h
  · next hn =>
    cases h
    exact ⟨hn, rfl⟩
  · cases h

theorem readCount_encode32 {rest : List UInt8} (hn : n ≤ 0xffffffff) (hleast : 0 < least)
    (hrest : n * least ≤ rest.length) :
    readCount s least (encode32 n.toUInt32 ++ rest) = .ok (n, rest) := by
  have henough : ¬ rest.length / least < n :=
    Nat.not_lt.2 ((Nat.le_div_iff_mul_le hleast).2 hrest)
  simp only [readCount, read32_encode32, bind, Except.bind, toNat_toUInt32 hn, if_neg henough]
  rfl

/-- Names and their indices in a string table. -/
def Indexes (indexed : List (String × Nat)) (strings : Array String) : Prop :=
  ∀ name i, nameIndex indexed name = .ok i → strings[i.toNat]? = some name

theorem indexes_zipIdx {strings : Array String} (h : strings.size ≤ 0xffffffff) :
    Indexes strings.toList.zipIdx.reverse strings := by
  intro name i hi
  unfold nameIndex at hi
  split at hi
  · next k hk =>
    cases hi
    obtain ⟨before, after, hsplit, -⟩ := List.lookup_eq_some_iff.1 hk
    have hmem : (name, k) ∈ strings.toList.zipIdx := by
      rw [← List.mem_reverse, hsplit]
      exact List.mem_append_right _ List.mem_cons_self
    have hentry : strings[k]? = some name := by
      simpa using List.mem_zipIdx_iff_getElem?.1 hmem
    have hlt := (Array.getElem?_eq_some_iff.1 hentry).1
    rw [toNat_toUInt32 (by omega), hentry]
  · cases hi

variable {indexed : List (String × Nat)} {strings : Array String}

theorem readName_encode32 {name : String} {i : UInt32} (h : Indexes indexed strings)
    (hi : nameIndex indexed name = .ok i) (rest : List UInt8) :
    readName s strings (encode32 i ++ rest) = .ok (name, rest) := by
  simp only [readName, read32_encode32, bind, Except.bind, h name i hi]
  rfl

theorem readType_tag (t : ValueType) (rest : List UInt8) :
    readType (t.tag :: rest) = .ok (t, rest) := by
  simp only [readType, read8_cons, bind, Except.bind, ValueType.ofTag?_tag]
  rfl

/-! ## Sections -/

theorem readEntry_encodeEntry (h : Indexes indexed strings) (e : Schema.Entry) (bytes : List UInt8)
    (hbytes : encodeEntry indexed e = .ok bytes) (rest : List UInt8) :
    readEntry strings (bytes ++ rest) = .ok (e, rest) := by
  obtain ⟨i, hi, hbytes⟩ := bind_eq_ok.1 hbytes
  cases hbytes
  simp only [readEntry, List.append_assoc, List.cons_append, readName_encode32 h hi, readType_tag,
    read16_encode16, bind, Except.bind]
  rfl

theorem readChannel_encodeChannel (h : Indexes indexed strings) (c : Schema.Channel)
    (bytes : List UInt8) (hbytes : encodeChannel indexed c = .ok bytes) (rest : List UInt8) :
    readChannel strings (bytes ++ rest) = .ok (c, rest) := by
  obtain ⟨i, hi, hbytes⟩ := bind_eq_ok.1 hbytes
  cases hbytes
  simp only [readChannel, List.append_assoc, List.cons_append, readName_encode32 h hi, readType_tag,
    read16_encode16, bind, Except.bind]
  rfl

theorem readPoint_encodePoint (h : Indexes indexed strings) (p : ContinuationPoint)
    (bytes : List UInt8) (hbytes : encodePoint indexed p = .ok bytes) (rest : List UInt8) :
    readPoint strings (bytes ++ rest) = .ok (p, rest) := by
  obtain ⟨i, hi, hbytes⟩ := bind_eq_ok.1 hbytes
  cases hbytes
  simp only [readPoint, List.append_assoc, readName_encode32 h hi, read32_encode32, bind,
    Except.bind]
  rfl

theorem readTable_mapM {read : List UInt8 → Except LoadError (Read α)}
    {write : α → Except EncodeError (List UInt8)} {count : List UInt8}
    (hcount : count16 what items.length = .ok count) (hwritten : items.mapM write = .ok written)
    (h : ∀ a bytes, write a = .ok bytes → ∀ rest, read (bytes ++ rest) = .ok (a, rest))
    (rest : List UInt8) :
    readTable read (count ++ (written.flatten ++ rest)) = .ok (items, rest) := by
  obtain ⟨hn, rfl⟩ := count16_ok hcount
  simp only [readTable, read16_encode16, bind, Except.bind, toNat_toUInt16 hn]
  exact readItems_mapM hwritten h [] rest

theorem decodeSchema_encodeSchema (h : Indexes indexed strings) {s : Schema}
    (hbytes : encodeSchema indexed s = .ok bytes) : decodeSchema strings bytes = .ok s := by
  obtain ⟨inputs, hinputs, hbytes⟩ := bind_eq_ok.1 hbytes
  obtain ⟨outputs, houtputs, hbytes⟩ := bind_eq_ok.1 hbytes
  obtain ⟨channelCount, hchannelCount, hbytes⟩ := bind_eq_ok.1 hbytes
  obtain ⟨channels, hchannels, hbytes⟩ := bind_eq_ok.1 hbytes
  cases hbytes
  obtain ⟨inputCount, hinputCount, hinputs⟩ := bind_eq_ok.1 hinputs
  obtain ⟨inputEntries, hinputEntries, hinputs⟩ := bind_eq_ok.1 hinputs
  cases hinputs
  obtain ⟨outputCount, houtputCount, houtputs⟩ := bind_eq_ok.1 houtputs
  obtain ⟨outputEntries, houtputEntries, houtputs⟩ := bind_eq_ok.1 houtputs
  cases houtputs
  have hlast := readTable_mapM hchannelCount hchannels (readChannel_encodeChannel h) []
  rw [List.append_nil] at hlast
  simp only [decodeSchema, List.append_assoc, bind, Except.bind,
    readTable_mapM hinputCount hinputEntries (readEntry_encodeEntry h),
    readTable_mapM houtputCount houtputEntries (readEntry_encodeEntry h), hlast]
  rfl

/-- Each item takes as many bytes as its writer makes of it, so there are enough of them. -/
theorem length_mul_le_flatten {ε : Type} {write : α → Except ε (List UInt8)}
    (hwritten : items.mapM write = .ok written)
    (h : ∀ a bytes, write a = .ok bytes → least ≤ bytes.length) :
    items.length * least ≤ written.flatten.length := by
  induction items generalizing written with
  | nil =>
    rw [List.length_nil, Nat.zero_mul]
    exact Nat.zero_le _
  | cons a items ih =>
    rw [List.mapM_cons] at hwritten
    obtain ⟨bytes, hbytes, hwritten⟩ := bind_eq_ok.1 hwritten
    obtain ⟨others, hothers, hwritten⟩ := bind_eq_ok.1 hwritten
    cases hwritten
    rw [List.length_cons, Nat.succ_mul, List.flatten_cons, List.length_append, Nat.add_comm]
    exact Nat.add_le_add (h a bytes hbytes) (ih hothers)

theorem decodePoints_encodePoints (h : Indexes indexed strings) {points : Array ContinuationPoint}
    (hbytes : encodePoints indexed points.toList = .ok bytes) :
    decodePoints strings bytes = .ok points := by
  obtain ⟨count, hcount, hbytes⟩ := bind_eq_ok.1 hbytes
  obtain ⟨written, hwritten, hbytes⟩ := bind_eq_ok.1 hbytes
  cases hbytes
  obtain ⟨hn, rfl⟩ := count32_ok hcount
  have hleast : points.toList.length * 20 ≤ written.flatten.length := by
    refine length_mul_le_flatten hwritten fun p bytes hbytes => ?_
    obtain ⟨i, -, hbytes⟩ := bind_eq_ok.1 hbytes
    cases hbytes
    exact Nat.le_refl _
  have hitems := readItems_mapM hwritten (readPoint_encodePoint h) [] []
  rw [List.append_nil] at hitems
  simp only [decodePoints, bind, Except.bind, readCount_encode32 hn (by decide) hleast, hitems]
  simp [finish, pure, Except.pure]

theorem length_flatMap_const {β : Type} {f : α → List β} {width : Nat}
    (h : ∀ a, (f a).length = width) (l : List α) : (l.flatMap f).length = l.length * width := by
  induction l with
  | nil => rw [List.flatMap_nil, List.length_nil, List.length_nil, Nat.zero_mul]
  | cons a l ih =>
    rw [List.flatMap_cons, List.length_append, h, ih, List.length_cons, Nat.succ_mul, Nat.add_comm]

theorem readConstant_encode64 (c : Constant) (rest : List UInt8) :
    readConstant (encode64 c.bits ++ rest) = .ok (c, rest) := by
  rw [readConstant, read64_encode64]
  rfl

theorem decodeConstants_encodeConstants {constants : Array Constant}
    (hbytes : encodeConstants constants.toList = .ok bytes) :
    decodeConstants bytes = .ok constants := by
  obtain ⟨count, hcount, hbytes⟩ := bind_eq_ok.1 hbytes
  cases hbytes
  obtain ⟨hn, rfl⟩ := count32_ok hcount
  have hleast : constants.toList.length * 8 ≤
      (constants.toList.flatMap fun c => encode64 c.bits).length := by
    have hwidth (c : Constant) : (encode64 c.bits).length = 8 := rfl
    rw [length_flatMap_const hwidth]
  have hitems := readItems_flatMap readConstant_encode64 constants.toList []
  rw [List.append_nil] at hitems
  simp only [decodeConstants, bind, Except.bind, readCount_encode32 hn (by decide) hleast, hitems]
  simp [finish, pure, Except.pure]

theorem readStrings_mapM {texts : List String} (hwritten : texts.mapM encodeString = .ok written)
    (index : Nat) (done : Array String) (rest : List UInt8) :
    readStrings index texts.length done (written.flatten ++ rest) =
      .ok (done ++ texts.toArray, rest) := by
  induction texts generalizing index done written with
  | nil =>
    cases hwritten
    simp [readStrings]
  | cons text texts ih =>
    rw [List.mapM_cons] at hwritten
    obtain ⟨bytes, hbytes, hwritten⟩ := bind_eq_ok.1 hwritten
    obtain ⟨others, hothers, hwritten⟩ := bind_eq_ok.1 hwritten
    cases hwritten
    obtain ⟨count, hcount, hbytes⟩ := bind_eq_ok.1 hbytes
    cases hbytes
    obtain ⟨hn, rfl⟩ := count32_ok hcount
    rw [List.length_cons, readStrings, List.flatten_cons, List.append_assoc, List.append_assoc,
      read32_encode32]
    simp only [readBytes_append (toNat_toUInt32 hn).symm, fromUTF8?_toUTF8, ih hothers]
    simp

theorem decodeStrings_encodeStrings {strings : Array String}
    (hbytes : encodeStrings strings.toList = .ok bytes) :
    decodeStrings bytes = .ok strings ∧ strings.size ≤ 0xffffffff := by
  obtain ⟨count, hcount, hbytes⟩ := bind_eq_ok.1 hbytes
  obtain ⟨written, hwritten, hbytes⟩ := bind_eq_ok.1 hbytes
  cases hbytes
  obtain ⟨hn, rfl⟩ := count32_ok hcount
  have hleast : strings.toList.length * 4 ≤ written.flatten.length := by
    refine length_mul_le_flatten hwritten fun text bytes hbytes => ?_
    obtain ⟨count, hcount, hbytes⟩ := bind_eq_ok.1 hbytes
    cases hbytes
    obtain ⟨-, rfl⟩ := count32_ok hcount
    rw [List.length_append]
    exact Nat.le_add_right 4 _
  have hitems := readStrings_mapM hwritten 0 #[] []
  rw [List.append_nil] at hitems
  refine ⟨?_, by simpa using hn⟩
  simp only [decodeStrings, bind, Except.bind, readCount_encode32 hn (by decide) hleast, hitems]
  simp [finish, pure, Except.pure]

theorem readWords_flatMap (words : List Word) (done : Array Word) :
    readWords done (words.flatMap encode32) = done ++ words.toArray := by
  induction words generalizing done with
  | nil => simp [readWords]
  | cons word words ih =>
    rw [List.flatMap_cons]
    show readWords (done.push _) (words.flatMap encode32) = _
    rw [join32, ih]
    simp

theorem decodeCode_encodeCode (code : Array Word) :
    decodeCode (encodeCode code.toList) = .ok code := by
  have hlength : (encodeCode code.toList).length % 4 = 0 := by
    have hwidth (w : Word) : (encode32 w).length = 4 := rfl
    rw [encodeCode, length_flatMap_const hwidth]
    omega
  rw [decodeCode, if_pos hlength, encodeCode, readWords_flatMap]
  simp

/-- The debug section. -/
def encodeDebug : Option DebugMap → List UInt8
  | some d => d.encode
  | none => []

theorem decodeDebug_encodeDebug {debug? : Option DebugMap}
    (hflag : flags.contains .debugInfo = debug?.isSome)
    (hsize : (encodeDebug debug?).length ≤ 0xffffffff) :
    decodeDebug flags (encodeDebug debug?) = .ok debug? := by
  rw [decodeDebug, hflag]
  cases debug? with
  | none => rfl
  | some d =>
    have h : DebugMap.decode? d.encode = some d := DebugMap.decode?_encode (Nat.lt_succ_of_le hsize)
    simp only [Option.isSome_some, if_true, encodeDebug, h]

/-! ## Payloads -/

/-- A row of the table of sections, and the rows after it. -/
theorem encodeTable_cons_ok {s : List UInt8} {rest : List (List UInt8)}
    (h : encodeTable offset (s :: rest) = .ok table) :
    ∃ others, encodeTable (offset + s.length) rest = .ok others ∧ offset ≤ 0xffffffff ∧
      s.length ≤ 0xffffffff ∧
      table = encode32 offset.toUInt32 ++ (encode32 s.length.toUInt32 ++ others) := by
  obtain ⟨first, hfirst, h⟩ := bind_eq_ok.1 h
  obtain ⟨second, hsecond, h⟩ := bind_eq_ok.1 h
  obtain ⟨others, hothers, h⟩ := bind_eq_ok.1 h
  cases h
  obtain ⟨hoffset, rfl⟩ := count32_ok hfirst
  obtain ⟨hlength, rfl⟩ := count32_ok hsecond
  exact ⟨others, hothers, hoffset, hlength, List.append_assoc _ _ _⟩

theorem length_encodeTable (h : encodeTable offset sections = .ok table) :
    table.length = 8 * sections.length := by
  induction sections generalizing offset table with
  | nil =>
    cases h
    rfl
  | cons s rest ih =>
    obtain ⟨others, hothers, -, -, rfl⟩ := encodeTable_cons_ok h
    rw [List.length_append, List.length_append, ih hothers, List.length_cons]
    show 4 + (4 + 8 * rest.length) = _
    omega

theorem length_le_of_encodeTable (h : encodeTable offset sections = .ok table) :
    ∀ s ∈ sections, s.length ≤ 0xffffffff := by
  induction sections generalizing offset table with
  | nil => simp
  | cons s rest ih =>
    obtain ⟨others, hothers, -, hlength, -⟩ := encodeTable_cons_ok h
    exact List.forall_mem_cons.2 ⟨hlength, ih hothers⟩

theorem readSectionSize_encode32 (hoffset : offset ≤ 0xffffffff) (hsize : size ≤ 0xffffffff)
    {whole : Nat} (hwhole : offset + size ≤ whole) (rest : List UInt8) :
    readSectionSize s whole offset (encode32 offset.toUInt32 ++ (encode32 size.toUInt32 ++ rest)) =
      .ok (size, rest) := by
  have hplaced : ¬ (offset ≠ offset ∨ whole < offset + size) := by omega
  simp only [readSectionSize, read32_encode32, bind, Except.bind, toNat_toUInt32 hoffset,
    toNat_toUInt32 hsize, if_neg hplaced]
  rfl

theorem splitAt_append (front rest : List UInt8) :
    (front ++ rest).splitAt front.length = (front, rest) := by
  simp

/-- The sections of a payload are found where its table says. -/
theorem splitSections_encodeTable {schema points constants strings code debug : List UInt8}
    (h : encodeTable Stored.tableSize [schema, points, constants, strings, code, debug] =
      .ok table) :
    splitSections (table ++ [schema, points, constants, strings, code, debug].flatten) =
      .ok { schema, points, constants, strings, code, debug } := by
  have htable : table.length = 48 := length_encodeTable h
  have hwhole : (table ++ [schema, points, constants, strings, code, debug].flatten).length =
      48 + schema.length + points.length + constants.length + strings.length + code.length +
        debug.length := by
    simp [htable]
    omega
  have hbody : (table ++ [schema, points, constants, strings, code, debug].flatten).drop 48 =
      schema ++ (points ++ (constants ++ (strings ++ (code ++ debug)))) := by
    rw [List.drop_left' htable]
    simp
  obtain ⟨rows₁, h₁, ho₁, hs₁, rfl⟩ := encodeTable_cons_ok h
  obtain ⟨rows₂, h₂, ho₂, hs₂, rfl⟩ := encodeTable_cons_ok h₁
  obtain ⟨rows₃, h₃, ho₃, hs₃, rfl⟩ := encodeTable_cons_ok h₂
  obtain ⟨rows₄, h₄, ho₄, hs₄, rfl⟩ := encodeTable_cons_ok h₃
  obtain ⟨rows₅, h₅, ho₅, hs₅, rfl⟩ := encodeTable_cons_ok h₄
  obtain ⟨rows₆, h₆, ho₆, hs₆, rfl⟩ := encodeTable_cons_ok h₅
  cases h₆
  simp only [Stored.tableSize, List.append_assoc] at *
  unfold splitSections
  dsimp only [Stored.tableSize]
  rw [hwhole, hbody]
  generalize hsum : 48 + schema.length + points.length + constants.length + strings.length +
    code.length + debug.length = whole
  have hw₁ : 48 + schema.length ≤ whole := by omega
  have hw₂ : 48 + schema.length + points.length ≤ whole := by omega
  have hw₃ : 48 + schema.length + points.length + constants.length ≤ whole := by omega
  have hw₄ : 48 + schema.length + points.length + constants.length + strings.length ≤ whole := by
    omega
  have hw₅ : 48 + schema.length + points.length + constants.length + strings.length +
      code.length ≤ whole := by omega
  have hstop : ¬ whole ≠ whole := fun h => h rfl
  simp only [bind, Except.bind, readSectionSize_encode32 ho₁ hs₁ hw₁,
    readSectionSize_encode32 ho₂ hs₂ hw₂, readSectionSize_encode32 ho₃ hs₃ hw₃,
    readSectionSize_encode32 ho₄ hs₄ hw₄, readSectionSize_encode32 ho₅ hs₅ hw₅,
    readSectionSize_encode32 ho₆ hs₆ (Nat.le_of_eq hsum), splitAt_append, hsum, if_neg hstop]
  rfl

theorem encodePayload_ok (h : m.encodePayload = .ok raw) :
    ∃ schema points constants strings table,
      encodeSchema m.strings.toList.zipIdx.reverse m.schema = .ok schema ∧
      encodePoints m.strings.toList.zipIdx.reverse m.points.toList = .ok points ∧
      encodeConstants m.constants.toList = .ok constants ∧
      encodeStrings m.strings.toList = .ok strings ∧
      encodeTable Stored.tableSize [schema, points, constants, strings, encodeCode m.code.toList,
        encodeDebug m.debug?] = .ok table ∧
      raw = table ++ [schema, points, constants, strings, encodeCode m.code.toList,
        encodeDebug m.debug?].flatten := by
  obtain ⟨schema, hschema, h⟩ := bind_eq_ok.1 h
  obtain ⟨points, hpoints, h⟩ := bind_eq_ok.1 h
  obtain ⟨constants, hconstants, h⟩ := bind_eq_ok.1 h
  obtain ⟨strings, hstrings, h⟩ := bind_eq_ok.1 h
  obtain ⟨table, htable, h⟩ := bind_eq_ok.1 h
  cases h
  exact ⟨schema, points, constants, strings, table, hschema, hpoints, hconstants, hstrings, htable,
    rfl⟩

/-! ## Whole models -/

theorem length_digest (message : List UInt8) : (Sha256.digest message).length = 32 := by
  rfl

theorem decodeHeader_encode {version flags maxStack maxCallDepth localCount : UInt16} {id : UInt64}
    {entry storedSize rawSize : UInt32} {digest body : List UInt8}
    (hversion : version = formatVersion) (hflags : Flags.all.contains ⟨flags⟩ = true)
    (hdigest : digest.length = 32) :
    decodeHeader (Stored.magic ++ (encode16 version ++ (encode16 flags ++ (encode64 id ++
      (encode16 maxStack ++ (encode16 maxCallDepth ++ (encode16 localCount ++ (encode32 entry ++
        (encode32 storedSize ++ (encode32 rawSize ++ (digest ++ (encode16 0 ++ body)))))))))))) =
      .ok ({ version, flags := ⟨flags⟩, id := ⟨id⟩, maxStack, maxCallDepth, localCount, entry,
             storedSize := storedSize.toNat, rawSize := rawSize.toNat, digest }, body) := by
  have hmagic : ¬ Stored.magic ≠ Stored.magic := fun h => h rfl
  have hversion' : ¬ version ≠ formatVersion := fun h => h hversion
  have hflags' : ¬ (!Flags.all.contains ⟨flags⟩) = true := by simp [hflags]
  simp only [decodeHeader, bind, Except.bind, readBytes_append rfl, if_neg hmagic, read16_encode16,
    if_neg hversion', if_neg hflags', read64_encode64, read32_encode32, readBytes_append hdigest]
  rfl

theorem decompress_stored {h : Header} (hcodec : codec.Lossless)
    (hstored : storePayload codec h.flags raw = .ok stored) (hraw : h.rawSize = raw.length)
    (hsize : raw.length ≤ Stored.maxPayload) : decompress codec h stored = .ok raw := by
  have hlimit : ¬ Stored.maxPayload < h.rawSize := by omega
  have hlength : ¬ raw.length ≠ h.rawSize := fun hne => hne hraw.symm
  unfold storePayload at hstored
  unfold decompress
  cases hcompressed : h.flags.contains .compressed with
  | false =>
    rw [hcompressed] at hstored
    cases hstored
    simp only [if_neg hlimit, bind, Except.bind, Bool.false_eq_true, if_false, pure, Except.pure,
      if_neg hlength]
  | true =>
    rw [hcompressed, if_pos rfl] at hstored
    have hframe : codec.decompress h.rawSize stored = .ok raw := by
      rw [hraw]
      exact hcodec raw stored (mapError_eq_ok.1 hstored)
    simp only [if_neg hlimit, bind, Except.bind, if_true, hframe, Except.mapError, pure,
      Except.pure, if_neg hlength]

theorem decodeAttachment_encodeAttachment (a : Attachment) (rest : List UInt8) :
    decodeAttachment (encodeAttachment (some a) ++ rest) = .ok (a, rest) := by
  simp only [decodeAttachment, encodeAttachment, List.append_assoc, read64_encode64,
    read32_encode32, bind, Except.bind]
  rfl

/-- What a stored model is made of. -/
theorem encode_ok (hraw : m.encodePayload = .ok raw) (h : m.encode codec = .ok bytes) :
    ∃ stored, storePayload codec m.flags raw = .ok stored ∧
      raw.length ≤ 0xffffffff ∧ stored.length ≤ 0xffffffff ∧
      bytes = Stored.magic ++ (encode16 m.version ++ (encode16 m.flags.bits ++
        (encode64 m.id.value ++ (encode16 m.maxStack ++ (encode16 m.maxCallDepth ++
          (encode16 m.localCount ++ (encode32 m.entry ++ (encode32 stored.length.toUInt32 ++
            (encode32 raw.length.toUInt32 ++
              (Sha256.digest (encodeAttachment m.extends? ++ stored) ++
                (encode16 0 ++ (encodeAttachment m.extends? ++ stored)))))))))))) := by
  obtain ⟨raw', hraw', h⟩ := bind_eq_ok.1 h
  obtain rfl : raw' = raw := Except.ok.inj (hraw'.symm.trans hraw)
  obtain ⟨rawSize, hrawSize, h⟩ := bind_eq_ok.1 h
  obtain ⟨stored, hstored, h⟩ := bind_eq_ok.1 h
  obtain ⟨storedSize, hstoredSize, h⟩ := bind_eq_ok.1 h
  obtain ⟨hrawLe, rfl⟩ := count32_ok hrawSize
  obtain ⟨hstoredLe, rfl⟩ := count32_ok hstoredSize
  cases h
  refine ⟨stored, hstored, hrawLe, hstoredLe, ?_⟩
  simp only [List.append_assoc]

/-- The sections of a payload hold the parts of the model. -/
theorem splitSections_encodePayload (h : m.encodePayload = .ok raw)
    (hdebug : m.flags.contains .debugInfo = m.debug?.isSome) :
    ∃ s, splitSections raw = .ok s ∧ decodeStrings s.strings = .ok m.strings ∧
      decodeSchema m.strings s.schema = .ok m.schema ∧
      decodePoints m.strings s.points = .ok m.points ∧
      decodeConstants s.constants = .ok m.constants ∧ decodeCode s.code = .ok m.code ∧
      decodeDebug m.flags s.debug = .ok m.debug? := by
  obtain ⟨schema, points, constants, strings, table, hschema, hpoints, hconstants, hstrings, htable,
    rfl⟩ := encodePayload_ok h
  obtain ⟨hstrings, hsize⟩ := decodeStrings_encodeStrings hstrings
  have hindexes := indexes_zipIdx hsize
  refine ⟨_, splitSections_encodeTable htable, hstrings, decodeSchema_encodeSchema hindexes hschema,
    decodePoints_encodePoints hindexes hpoints, decodeConstants_encodeConstants hconstants,
    decodeCode_encodeCode m.code, decodeDebug_encodeDebug hdebug ?_⟩
  exact length_le_of_encodeTable htable _ (by simp)

/-- The body of a stored model splits into the extension header, which is there if the flags
announce it, and the payload. -/
theorem decodeBody_encodeAttachment {extends? : Option Attachment}
    (h : flags.contains .isExtension = extends?.isSome) {stored : List UInt8}
    (hsize : size = Stored.headerSize + (encodeAttachment extends? ++ stored).length)
    (k : Read (Option Attachment) → Except LoadError α) :
    (if flags.contains .isExtension then
      if size < Stored.headerSize + Stored.extensionHeaderSize then throw (.tooShort size) >>= k
      else ((decodeAttachment (encodeAttachment extends? ++ stored)).map
        fun (a, rest) => (some a, rest)) >>= k
    else pure (none, encodeAttachment extends? ++ stored) >>= k) = k (extends?, stored) := by
  cases extends? with
  | none =>
    have hno : ¬ flags.contains .isExtension = true := by simp [h]
    rw [if_neg hno]
    rfl
  | some a =>
    have hyes : flags.contains .isExtension = true := h
    have hlong : ¬ size < Stored.headerSize + Stored.extensionHeaderSize := by
      have hlength : (encodeAttachment (some a)).length = Stored.extensionHeaderSize := rfl
      rw [List.length_append, hlength] at hsize
      omega
    rw [if_pos hyes, if_neg hlong, decodeAttachment_encodeAttachment]
    rfl

/-- Reading undoes writing. -/
theorem decode_encode (hcodec : codec.Lossless) (hversion : m.version = formatVersion)
    (hflags : Flags.all.contains m.flags = true)
    (hextension : m.flags.contains .isExtension = m.extends?.isSome)
    (hdebug : m.flags.contains .debugInfo = m.debug?.isSome) (hraw : m.encodePayload = .ok raw)
    (hsize : raw.length ≤ Stored.maxPayload) (h : m.encode codec = .ok bytes) :
    decode codec bytes = .ok m := by
  obtain ⟨stored, hstored, hrawLe, hstoredLe, hbytes⟩ := encode_ok hraw h
  obtain ⟨s, hsplit, hstrings, hschema, hpoints, hconstants, hcode, hdebug⟩ :=
    splitSections_encodePayload hraw hdebug
  have hheader := (congrArg decodeHeader hbytes).trans
    (decodeHeader_encode hversion hflags (length_digest _))
  have hlength : bytes.length =
      Stored.headerSize + (encodeAttachment m.extends? ++ stored).length := by
    rw [hbytes]
    simp only [List.length_append, length_digest]
    show 4 + (2 + (2 + (8 + (2 + (2 + (2 + (4 + (4 + (4 + (32 + (2 + _))))))))))) = 68 + _
    omega
  have hshort : ¬ bytes.length < Stored.headerSize := by omega
  have hstoredSize : ¬ stored.length ≠ stored.length.toUInt32.toNat :=
    fun hne => hne (toNat_toUInt32 hstoredLe).symm
  have hdigest (body : List UInt8) : ¬ Sha256.digest body ≠ Sha256.digest body := fun h => h rfl
  unfold decode
  dsimp only
  rw [if_neg hshort]
  refine bind_eq_ok.2 ⟨_, hheader, ?_⟩
  dsimp only
  rw [decodeBody_encodeAttachment hextension hlength]
  dsimp only
  rw [if_neg hstoredSize, if_neg (hdigest _)]
  exact bind_eq_ok.2 ⟨_, decompress_stored hcodec hstored (toNat_toUInt32 hrawLe) hsize,
    bind_eq_ok.2 ⟨_, hsplit, bind_eq_ok.2 ⟨_, hstrings, bind_eq_ok.2 ⟨_, hschema,
      bind_eq_ok.2 ⟨_, hpoints, bind_eq_ok.2 ⟨_, hconstants, bind_eq_ok.2 ⟨_, hcode,
        bind_eq_ok.2 ⟨_, hdebug, rfl⟩⟩⟩⟩⟩⟩⟩⟩

/-- Flags of a model that passes the check announce what the model has. -/
theorem flags_of_check (h : m.check = .ok ()) :
    m.flags.contains .isExtension = m.extends?.isSome ∧
      m.flags.contains .debugInfo = m.debug?.isSome := by
  obtain ⟨⟨⟩, hflags, -⟩ := bind_eq_ok.1 h
  unfold checkFlags at hflags
  split at hflags
  · cases hflags
  · next hextension =>
    split at hflags
    · cases hflags
    · split at hflags
      · cases hflags
      · next hdebug => exact ⟨not_not.1 hextension, not_not.1 hdebug⟩

/-- An extension with a continuation point, a name stored twice and a debug map, to be
compressed. -/
def resuming : Model where
  id := ⟨2⟩
  version := formatVersion
  flags := .all
  maxStack := 1
  maxCallDepth := 0
  localCount := 0
  entry := 0
  schema := { inputs := [⟨"x", .number, 3⟩], outputs := [⟨"y", .number, 1⟩],
              channels := [⟨"c", .number, 4, 5⟩] }
  points := #[⟨"p", nameHash "p", 10, 3, 2⟩]
  constants := #[⟨1⟩]
  strings := #["y", "x", "p", "c", "x"]
  code := #[Word.encode .loadInput 3, Word.encode .storeOutput 1, Word.encode .pause 0,
    Word.encode .halt 0]
  extends? := some ⟨⟨1⟩, nameHash "q"⟩
  debug? := some { spans := #[(0, ⟨1, 2⟩)], flows := [(0, "main")] }

/-- The payload of this model, as zstd compresses it. -/
def resumingFrame : List UInt8 :=
  [40, 181, 47, 253, 0, 88, 77, 3, 0, 226, 7, 20, 31, 160, 41, 195, 24, 184, 170, 170, 10, 44,
    226, 89, 122, 75, 222, 62, 33, 171, 192, 27, 225, 116, 193, 29, 199, 159, 137, 162, 9, 217,
    91, 166, 14, 70, 162, 81, 185, 162, 180, 117, 69, 171, 240, 195, 161, 231, 172, 20, 223, 227,
    139, 124, 146, 230, 180, 243, 116, 121, 12, 150, 102, 230, 234, 238, 170, 103, 238, 128, 83,
    30, 248, 4, 242, 231, 139, 11, 142, 248, 224, 132, 8, 0, 100, 138, 245, 146, 113, 42, 98, 72,
    157, 75, 170, 201, 155, 66, 199, 93, 220, 102, 19, 15]

/-- A codec that has this payload on record, and puts a zero before all other data. -/
def resumingCodec : Codec where
  compress data :=
    .ok (if resuming.encodePayload.toOption = some data then resumingFrame else 0 :: data)
  decompress room data :=
    match resuming.encodePayload.toOption, data with
    | _, 0 :: data => if data.length ≤ room then .ok data else .error "too long"
    | some raw, _ =>
      if data = resumingFrame ∧ raw.length ≤ room then .ok raw else .error "unknown frame"
    | none, _ => .error "unknown frame"

end Behavior.Model
