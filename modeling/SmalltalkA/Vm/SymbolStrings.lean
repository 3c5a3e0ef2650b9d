import SmalltalkA.Vm.IndexedAccess

/-! `asSymbol` and `asString` (`primitive_table.c`): from the bytes of a String to its Symbol, the size
and the elements of the Symbol, and back to a String. -/

set_option autoImplicit false

namespace SmalltalkA

open Probing ByteCodec List

/-- The bytes of a String as `prim_as_symbol` counts them. -/
def stringBytes (obj : Obj) : Option (List Nat) :=
  if byteCount obj 0 ≤ obj.bytes.length then some (obj.bytes.take (byteCount obj 0)) else none

/-- `prim_as_symbol`. -/
def primAsSymbol (s : Interner) (args : List Oop) : Access (Oop × Interner) :=
  if isImmediate (args.getD 0 0) then failWith primBadReceiver
  else do
    let obj ← heapObject s.mem (args.getD 0 0)
    if obj.classIndex ≠ clsString then failWith primBadReceiver
    else do
      let bytes ← inObject (stringBytes obj)
      let (sym,sp,m,st) ← inObject (symbolIntern s.immutable s.mem s.symbols bytes)
      if sym = 0 then failWith primNoMemory else return (sym,⟨sp,m,st⟩)

/-- `prim_sym_as_string`: the length is that of the C string. -/
def primSymAsString (alloc : Allocator) (m : Memory) (args : List Oop) : Access (Oop × Memory) :=
  let sym := args.getD 0 0
  if isImmediate sym then failWith primBadReceiver
  else do
    let obj ← heapObject m sym
    if obj.classIndex ≠ clsSymbol then failWith primBadReceiver
    else do
      let len := (← inObject (symbolGetBytes m sym)).length
      let words := (len % 2 ^ 32 + 7) % 2 ^ 32 / 8
      match alloc m clsString words with
      | none => failWith primNoMemory
      | some (o,m) => do
        let str ← heapObject m o
        let field := symbolField (← heapObject m sym)
        let bytes ← inObject
          (if len ≤ words * 8 ∧ len ≤ field.length then some (field.take len) else none)
        return (o,m.put o (some { str with
          reserved := (words * 8 + 2 ^ 32 - len % 2 ^ 32) % 2 ^ 8
          payload := packWords words bytes }))

/-! ## What a conversion is -/

def HoldsString (obj : Obj) (s : List Nat) : Prop :=
  obj.classIndex = clsString ∧ ∃ rest,obj.bytes = s ++ rest ∧ rest.length = bytePadding obj

/-- The Symbol has the size and the elements of the string, and turns into a String of it. -/
structure Converted (classTable : List Oop) (alloc : Allocator) (m : Memory) (sym : Oop)
    (s : List Nat) : Prop where
  size : primArraySize classTable m [sym] = .ok (smallIntOop s.length,m)
  elements : ∀ (i : Nat) b,s[i]? = some b →
    primStringAt classTable m [sym,smallIntOop (i + 1)] = .ok (charOop b,m)
  back : ∃ str m' obj,primSymAsString alloc m [sym] = .ok (str,m') ∧ m' str = some obj ∧
    HoldsString obj s

/-- The Symbols so far were made of C strings. -/
structure Interner.CStrings (s : Interner) : Prop where
  aligned : s.immutable.base % 16 = 0
  symbols : ∀ o ∈ entries s.symbols.slots,isHeap o = true ∧
    ∃ b,NulFree b ∧ s.mem o = some (newSymbol b)

def Interner.HasRoom (s : Interner) (len : Nat) : Prop :=
  s.immutable.isSealed = false ∧
    (s.immutable.used + 15) / 16 * 16 + allocSize (1 + symbolWords len) ≤ s.immutable.capacity

def Allocator.HasRoom (alloc : Allocator) (m : Memory) (words : Nat) : Prop :=
  ∀ n ≤ words,∃ o m' obj,alloc m clsString n = some (o,m') ∧ m' o = some obj ∧
    obj.classIndex = clsString ∧
    ∀ p x,m p = some x → x.isImmutable = true → p ≠ o ∧ m' p = some x

/-- The class of Symbols has one instance variable, the hash, and bytes behind it. -/
def SymbolFormat (classTable : List Oop) (m : Memory) : Prop :=
  ∃ fmt,classFormats classTable m clsSymbol = some fmt ∧ formatIsBytes fmt = true ∧
    formatInstVars fmt = 1

section

variable {s s' : Interner} {bytes : List Nat} {o : Oop} {m : Memory} {classTable : List Oop}

/-! ## Interning any bytes -/

theorem intern_newSymbol (h : s.Inv) (hc : s.CStrings) (hshort : ShortString bytes)
    (hroom : s.HasRoom bytes.length) :
    ∃ sym sp m st,symbolIntern s.immutable s.mem s.symbols bytes = some (sym,sp,m,st) ∧ sym ≠ 0 ∧
      isHeap sym = true ∧ m sym = some (newSymbol bytes) ∧
      ∀ p obj,s.mem p = some obj → m p = some obj := by
  by_cases hold : ∃ p,s.Holds bytes p
  · obtain ⟨p,hp⟩ := hold
    obtain ⟨hheap,b,hb,hobj⟩ := hc.symbols p hp.1
    cases (symbolGetBytes_newSymbol hb hobj).symm.trans hp.2
    exact ⟨p,_,_,_,symbolIntern_entry s.immutable h.sound hp.1 hp.2,h.nonzero p hp.1,hheap,hobj,
      fun _ _ hx => hx⟩
  · obtain ⟨st,j,-,-,-,-,-,-,-,hintern⟩ := h.intern_new (fun r hr heq => hold ⟨r,hr,heq⟩)
    rcases allocSymbol_short s.immutable s.mem hshort with ⟨hnone,-⟩ |
      ⟨start,used,hstart,hused,hcap,halign,halloc⟩
    · simp [immutableAlloc,hroom.1,Nat.not_lt.mpr hroom.2] at hnone
    · have hbase := h.mapped
      have haligned := hc.aligned
      have hne : s.immutable.base + start ≠ 0 := by omega
      refine ⟨s.immutable.base + start,_,_,_,by rw [hintern,halloc]; rfl,hne,?_,
        Memory.put_same _ _ _,fun p obj hp => ?_⟩
      · have hmod : (s.immutable.base + start : Nat) % 4 = 0 := by omega
        simpa [isHeap] using hmod
      · have hfree := h.free (s.immutable.base + start) (by omega) (by omega)
        have hne : p ≠ s.immutable.base + start := by
          rintro rfl
          rw [hfree] at hp
          cases hp
        rw [Memory.put_other hne]
        exact hp

variable {obj : Obj} {b : List Nat} {sym : Oop}

theorem stringBytes_holds {str : List Nat} (hobj : HoldsString obj str)
    (hsize : obj.payload.length < 2 ^ 32) :
    stringBytes obj = some (str.take (str.length % 2 ^ 32)) := by
  obtain ⟨-,rest,hbytes,hrest⟩ := hobj
  have hlen := length_bytes obj
  rw [hbytes,length_append,hrest] at hlen
  have hcount : byteCount obj 0 = str.length % 2 ^ 32 := by
    unfold byteCount varWords
    omega
  have hle := Nat.mod_le str.length (2 ^ 32)
  rw [stringBytes,hcount,hbytes,length_append,if_pos (by omega),take_append_of_le_length hle]

theorem asSymbol_newSymbol {str : List Nat} (h : s.Inv) (hc : s.CStrings) (hheap : isHeap o = true)
    (hobj : s.mem o = some obj) (hclass : obj.classIndex = clsString)
    (hstr : stringBytes obj = some str) (hlen : str.length < 2 ^ 32) (hroom : s.HasRoom str.length)
    :
    ∃ sym s',primAsSymbol s [o] = .ok (sym,s') ∧ isHeap sym = true ∧
      s'.mem sym = some (newSymbol str) ∧ ∀ p x,s.mem p = some x → s'.mem p = some x := by
  have hshort : ShortString str := Nat.lt_trans hlen (by decide)
  obtain ⟨sym,sp,m,st,hintern,hne,hsheap,hsobj,hkept⟩ := intern_newSymbol h hc hshort hroom
  refine ⟨sym,⟨sp,m,st⟩,?_,hsheap,hsobj,hkept⟩
  have hload : heapObject s.mem o = .ok obj := by rw [heapObject,hobj]; rfl
  have hbytes : inObject (stringBytes obj) = .ok str := by rw [hstr]; rfl
  have hsym : inObject (symbolIntern s.immutable s.mem s.symbols str) = .ok (sym,sp,m,st) := by
    rw [hintern]
    rfl
  rw [primAsSymbol,getD_cons_zero,isImmediate,hheap,hload,Access.ok_bind,
    if_neg (by simp),if_neg (by simpa using hclass),hbytes,Access.ok_bind,hsym,Access.ok_bind]
  exact if_neg hne

/-! ## The size and the elements of a Symbol -/

theorem newSymbol_length (b : List Nat) :
    (newSymbol b).payload.length = 1 + symbolWords b.length := by
  simp only [newSymbol,length_cons,length_packWords]
  omega

theorem newSymbol_count (hlen : b.length < 2 ^ 32) :
    byteCount (newSymbol b) 1 = b.length ↔ b.length = 0 ∨ b.length % 8 ≠ 0 := by
  have hwords : symbolWords b.length = if b.length = 0 then 0 else (b.length + 8) / 8 := rfl
  have hpad : (newSymbol b).reserved = (symbolWords b.length * 8 - b.length) % 8 := rfl
  simp only [byteCount,varWords,bytePadding,newSymbol_length,hpad]
  generalize b.length = k at hlen hwords
  split at hwords <;> omega

theorem newSymbol_bytes (hb : ∀ x ∈ b,x < 256) : (newSymbol b).bytes =
      toLe 8 (symbolHash b) ++ (b ++ List.replicate (8 * symbolWords b.length - b.length) 0) := by
  have hwords : b.length ≤ 8 * symbolWords b.length := by
    unfold symbolWords
    split <;> omega
  rw [← packWords_bytes hwords hb]
  rfl

theorem symbolFormat_get {b : List Nat} (hfmt : SymbolFormat classTable m) :
    getReceiverFormat classTable m (newSymbol b) ≠ 0 ∧
      formatIsBytes (getReceiverFormat classTable m (newSymbol b)) = true ∧
      formatInstVars (getReceiverFormat classTable m (newSymbol b)) = 1 := by
  obtain ⟨fmt,hget,hbytes,hinst⟩ := hfmt
  have heq : getReceiverFormat classTable m (newSymbol b) = fmt := by
    rw [getReceiverFormat,show (newSymbol b).classIndex = clsSymbol from rfl,hget]
    rfl
  rw [heq]
  refine ⟨fun h => ?_,hbytes,hinst⟩
  rw [h] at hinst
  exact absurd hinst (by decide)

theorem newSymbol_size (hfmt : SymbolFormat classTable m) (hheap : isHeap sym = true)
    (hsym : m sym = some (newSymbol b)) :
    primArraySize classTable m [sym] = .ok (smallIntOop (byteCount (newSymbol b) 1),m) := by
  obtain ⟨hne,hbytes,hinst⟩ := @symbolFormat_get m classTable b hfmt
  have hext : AtPrim.string.extent classTable m (newSymbol b) =
      some ⟨true,8,byteCount (newSymbol b) 1⟩ := by
    rw [AtPrim.extent,if_pos ⟨hne,hbytes⟩,byteExtent,hinst]
  exact size_of_extent hheap hsym hext

theorem newSymbol_at (hfmt : SymbolFormat classTable m) (hheap : isHeap sym = true)
    (hsym : m sym = some (newSymbol b)) (hb : ∀ x ∈ b,x < 256) (hlen : b.length < 2 ^ 32)
    (hcount : byteCount (newSymbol b) 1 = b.length) {i x : Nat} (hi : b[i]? = some x) :
    primStringAt classTable m [sym,smallIntOop (i + 1)] = .ok (charOop x,m) := by
  obtain ⟨hne,hbytes,hinst⟩ := @symbolFormat_get m classTable b hfmt
  have hlt := (List.getElem?_eq_some_iff.mp hi).1
  have hval : smallIntVal (smallIntOop (i + 1)) = i + 1 :=
    smallIntVal_inSmallInt (by unfold inSmallInt; omega)
  have hsetup : byteAccessSetup classTable m sym = .ok (newSymbol b,1,b.length) := by
    have hload : heapObject m sym = .ok (newSymbol b) := by rw [heapObject,hsym]; rfl
    rw [byteAccessSetup,isImmediate,hheap,hload,Access.ok_bind,if_neg (by simp)]
    simp only [hinst,hcount,hbytes,if_neg hne,Bool.not_true,Bool.false_eq_true,if_false]
  have hload : loadByte (newSymbol b) (1 * 8 + (i + 1 - 1 : Int).toNat) = .ok x := by
    have hpos : 1 * 8 + (i + 1 - 1 : Int).toNat = (toLe 8 (symbolHash b)).length + i := by
      rw [length_toLe]
      omega
    rw [loadByte,hpos,newSymbol_bytes hb,getElem?_append_right (Nat.le_add_right _ _),
      Nat.add_sub_cancel_left,getElem?_append_left hlt,hi]
    rfl
  have hindex : indexOutOfRange (i + 1) b.length = false := by
    rw [indexOutOfRange_false]
    have hcut := @uint32_of_lt (i + 1) (by omega) (by omega)
    omega
  rw [primStringAt,getD_cons_zero,hsetup,Access.ok_bind]
  simp only [getD_cons_succ,getD_cons_zero,isSmallInt_smallIntOop,hval,hindex,hload,
    Bool.not_true,Bool.false_eq_true,if_false]
  rfl

/-! ## Back to a String -/

theorem HoldsString.unique {t u : List Nat} (ht : HoldsString obj t) (hu : HoldsString obj u) :
    t = u := by
  obtain ⟨-,r,hr,hrlen⟩ := ht
  obtain ⟨-,r',hr',hrlen'⟩ := hu
  have heq := hr.symm.trans hr'
  exact (append_inj_right' heq (hrlen.trans hrlen'.symm) ▸ heq |> append_cancel_right)

theorem symAsString_cString {alloc : Allocator} (hheap : isHeap sym = true)
    (hsym : m sym = some (newSymbol b)) (hb : ∀ x ∈ b,x < 256) (hlen : b.length ≤ 2 ^ 31)
    (hroom : alloc.HasRoom m ((b.length + 7) / 8)) :
    ∃ str m' obj,primSymAsString alloc m [sym] = .ok (str,m') ∧ m' str = some obj ∧
      HoldsString obj (b.takeWhile (fun x => decide (x ≠ 0))) := by
  have hget := symbolGetBytes_cString hb hsym
  have hsub := takeWhile_prefix (l := b) (fun x => decide (x ≠ 0))
  generalize b.takeWhile (fun x => decide (x ≠ 0)) = c at hget hsub ⊢
  have hle := hsub.length_le
  obtain ⟨o,m',obj,halloc,hobj,hclass,hkept⟩ := hroom ((c.length + 7) / 8) (by omega)
  obtain ⟨-,hsym'⟩ := hkept sym _ hsym (by simp [newSymbol,Obj.isImmutable,sharedImmutable])
  obtain ⟨rest,hfield⟩ := newSymbol_field hb
  have htake : (symbolField (newSymbol b)).take c.length = c := by
    rw [hfield,take_append_of_le_length hle]
    exact (prefix_iff_eq_take.mp hsub).symm
  have hfits : c.length ≤ (c.length + 7) / 8 * 8 ∧
      c.length ≤ (symbolField (newSymbol b)).length := by
    rw [hfield,length_append]
    omega
  have hcut : c.length % 2 ^ 32 = c.length := Nat.mod_eq_of_lt (by omega)
  have hwords : (c.length + 7) % 2 ^ 32 = c.length + 7 := Nat.mod_eq_of_lt (by omega)
  refine ⟨o,m'.put o (some { obj with
    reserved := ((c.length + 7) / 8 * 8 + 2 ^ 32 - c.length) % 2 ^ 8
    payload := packWords ((c.length + 7) / 8) c }),_,?_,Memory.put_same _ _ _,hclass,
    List.replicate (8 * ((c.length + 7) / 8) - c.length) 0,?_,?_⟩
  · have hload : heapObject m sym = .ok (newSymbol b) := by rw [heapObject,hsym]; rfl
    have hload' : heapObject m' sym = .ok (newSymbol b) := by rw [heapObject,hsym']; rfl
    have hstr : heapObject m' o = .ok obj := by rw [heapObject,hobj]; rfl
    have hbytes : inObject (symbolGetBytes m sym) = .ok c := by rw [hget]; rfl
    have hsymbol : (newSymbol b).classIndex = clsSymbol := rfl
    rw [primSymAsString,getD_cons_zero]
    simp only [isImmediate,hheap,Bool.not_true,Bool.false_eq_true,if_false,hload,Access.ok_bind,
      hbytes,hsymbol,ne_eq,not_true_eq_false,hcut,hwords,halloc,hload',hstr,if_pos hfits,htake]
    rfl
  · exact packWords_bytes (by omega) (fun x hx => hb x (hsub.subset hx))
  · rw [length_replicate]
    simp only [bytePadding]
    omega

theorem smallIntOop_inj {a b : Int} (ha : inSmallInt a) (hb : inSmallInt b)
    (h : smallIntOop a = smallIntOop b) : a = b := by
  rw [← smallIntVal_inSmallInt ha,h,smallIntVal_inSmallInt hb]

theorem SymbolFormat.kept {m' : Memory} (h : SymbolFormat classTable m)
    (hkept : ∀ p x,m p = some x → m' p = some x) : SymbolFormat classTable m' := by
  obtain ⟨fmt,hget,hrest⟩ := h
  refine ⟨fmt,?_,hrest⟩
  unfold classFormats at hget ⊢
  split at hget
  · cases hget
  · rename_i hcls
    rw [if_neg hcls]
    obtain ⟨x,hx,hslot⟩ := Option.bind_eq_some_iff.mp hget
    rw [Memory.slot,hkept _ x hx]
    exact hslot

theorem Interner.HasRoom.length_le {len : Nat} (h : s.HasRoom len)
    (hcap : s.immutable.capacity ≤ 2 ^ 31) : len ≤ 2 ^ 31 := by
  have hroom := h.2
  unfold allocSize symbolWords at hroom
  split at hroom <;> omega

/-- The conversion of a String is right exactly if its length has 32 bits and fills no whole number of
words, and no NUL is in it. -/
theorem symbol_string_iff {obj : Obj} {str : List Nat} (h : s.Inv) (hc : s.CStrings)
    (hheap : isHeap o = true) (hobj : s.mem o = some obj) (hstr : HoldsString obj str)
    (hsize : obj.payload.length < 2 ^ 32) (hroom : s.HasRoom (str.length % 2 ^ 32))
    (hfmt : SymbolFormat classTable s.mem) :
    ∃ sym s',primAsSymbol s [o] = .ok (sym,s') ∧
      ∀ alloc : Allocator,alloc.HasRoom s'.mem (str.length / 8 + 1) →
        (Converted classTable alloc s'.mem sym str ↔
          str.length < 2 ^ 32 ∧ NulFree str ∧ (str.length = 0 ∨ str.length % 8 ≠ 0)) := by
  have hlen : (str.take (str.length % 2 ^ 32)).length = str.length % 2 ^ 32 := by
    rw [length_take,Nat.min_eq_left (Nat.mod_le _ _)]
  obtain ⟨sym,s',hcall,hsheap,hsym,hkept⟩ := asSymbol_newSymbol h hc hheap hobj hstr.1
    (stringBytes_holds hstr hsize) (by rw [hlen]; exact Nat.mod_lt _ (by decide))
    (by rw [hlen]; exact hroom)
  refine ⟨sym,s',hcall,fun alloc halloc => ?_⟩
  have hfmt' := hfmt.kept hkept
  have hbytes : ∀ x ∈ str,x < 256 := by
    obtain ⟨-,rest,heq,-⟩ := hstr
    exact fun x hx => bytes_lt obj x (heq ▸ mem_append_left rest hx)
  have hlong : str.length < 2 ^ 35 := by
    obtain ⟨-,rest,heq,-⟩ := hstr
    have hall := length_bytes obj
    rw [heq,length_append] at hall
    omega
  have hbound : str.length % 2 ^ 32 ≤ 2 ^ 31 := hroom.length_le h.capacity
  constructor
  · intro hconv
    have hcount : byteCount (newSymbol (str.take (str.length % 2 ^ 32))) 1 = str.length := by
      have heq := hconv.size
      rw [newSymbol_size hfmt' hsheap hsym] at heq
      have hlt := byteCount_lt (newSymbol (str.take (str.length % 2 ^ 32))) 1
      exact Int.ofNat_inj.mp (smallIntOop_inj (by unfold inSmallInt; omega)
        (by unfold inSmallInt; omega) (Prod.mk.inj (Except.ok.inj heq)).1)
    have hlt : str.length < 2 ^ 32 := hcount ▸ byteCount_lt _ 1
    rw [Nat.mod_eq_of_lt hlt,take_length] at hcount hsym
    obtain ⟨t,m',obj',hcall',hobj',hholds⟩ := hconv.back
    obtain ⟨t',m'',obj'',hcall'',hobj'',hholds'⟩ :=
      symAsString_cString hsheap hsym hbytes (by omega) (fun n hn => halloc n (by omega))
    obtain ⟨rfl,rfl⟩ := Prod.mk.inj (Except.ok.inj (hcall'.symm.trans hcall''))
    cases hobj'.symm.trans hobj''
    have hself := takeWhile_eq_self_iff.mp (hholds'.unique hholds)
    refine ⟨hlt,fun x hx => ⟨?_,hbytes x hx⟩,(newSymbol_count hlt).mp hcount⟩
    exact Nat.pos_of_ne_zero (by simpa using hself x hx)
  · rintro ⟨hlt,hnul,hwords⟩
    rw [Nat.mod_eq_of_lt hlt,take_length] at hsym
    have hcount := (newSymbol_count hlt).mpr hwords
    refine ⟨?_,fun i x hi => newSymbol_at hfmt' hsheap hsym hbytes hlt hcount hi,?_⟩
    · rw [newSymbol_size hfmt' hsheap hsym,hcount]
    · have hself : str.takeWhile (fun x => decide (x ≠ 0)) = str :=
        takeWhile_eq_self_iff.mpr fun x hx => by simpa using Nat.ne_of_gt (hnul x hx).1
      have hback := symAsString_cString hsheap hsym hbytes (by omega)
        (fun n hn => halloc n (by omega))
      rwa [hself] at hback

end

/-! A String at 64, and the class of Symbols at 32. -/

def symbolClassTable : List Oop := [0,0,0,0,0,0,0,32]

def stringInterner (padding : Nat) (bytes : List Nat) : Interner where
  immutable := ⟨65536,4096,0,false⟩
  mem := fun o =>
    if o = 32 then some ⟨2,0,0,0,[0,0,smallIntOop 513,0]⟩
    else if o = 64 then some ⟨clsString,0,0,padding,packWords 1 bytes⟩
    else none
  symbols := ⟨List.replicate 4 none,0⟩

def stringAlloc : Allocator := fun m c n => some (128,m.put 128 (some (newObj c n)))

theorem stringInterner_start (padding : Nat) (bytes : List Nat) :
    (stringInterner padding bytes).Start where
  symbols := ⟨4,by decide,by decide,rfl⟩
  used := Nat.zero_le _
  capacity := show 4096 ≤ 2 ^ 31 by decide
  mapped := show 0 < 65536 by decide
  free o hlow _ := by
    have hlow : (65536 : Nat) ≤ o := hlow
    have h32 : o ≠ 32 := by omega
    have h64 : o ≠ 64 := by omega
    simp [stringInterner,h32,h64]

theorem symbol_of_abc : ∃ sym s',primAsSymbol (stringInterner 5 [97,98,99]) [64] = .ok (sym,s') ∧
      Converted symbolClassTable stringAlloc s'.mem sym [97,98,99] := by
  obtain ⟨sym,s',hcall,hconv⟩ := @symbol_string_iff (stringInterner 5 [97,98,99]) 64
    symbolClassTable ⟨clsString,0,0,5,packWords 1 [97,98,99]⟩ [97,98,99]
    (stringInterner_start 5 _).inv.1
    ⟨rfl,fun o ho => absurd ho (by simp [stringInterner,entries])⟩ rfl rfl ⟨rfl,[0,0,0,0,0],rfl,rfl⟩ (by decide)
    ⟨rfl,by decide⟩ ⟨smallIntOop 513,rfl,by decide,by decide⟩
  have hfree : s'.mem 128 = none := by
    have h : (primAsSymbol (stringInterner 5 [97,98,99]) [64]).toOption.map
      (fun r => r.2.mem 128) = some none := rfl
    rw [hcall] at h
    exact Option.some.inj h
  refine ⟨sym,s',hcall,(hconv stringAlloc fun n _ => ?_).mpr
    ⟨by decide,by simp [NulFree],by decide⟩⟩
  refine ⟨128,_,newObj clsString n,rfl,Memory.put_same _ _ _,rfl,fun p x hp _ => ?_⟩
  have hne : p ≠ 128 := by
    rintro rfl
    rw [hfree] at hp
    cases hp
  exact ⟨hne,by rw [Memory.put_other hne]; exact hp⟩

/-- The Symbol of eight bytes has size 16. -/
theorem symbol_of_word : HoldsString ⟨clsString,0,0,0,packWords 1 [97,98,99,100,101,102,103,104]⟩
        [97,98,99,100,101,102,103,104] ∧
      ∃ s',primAsSymbol (stringInterner 0 [97,98,99,100,101,102,103,104]) [64] = .ok (65536,s') ∧
        primArraySize symbolClassTable s'.mem [65536] = .ok (smallIntOop 16,s'.mem) ∧
        ¬ Converted symbolClassTable stringAlloc s'.mem 65536 [97,98,99,100,101,102,103,104] := by
  refine ⟨⟨rfl,[],rfl,rfl⟩,_,rfl,rfl,fun h => ?_⟩
  exact absurd (Prod.mk.inj (Except.ok.inj h.size)).1 (by decide)

end SmalltalkA
