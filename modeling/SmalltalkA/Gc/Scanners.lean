import SmalltalkA.Gc.Objects

/-! The three counts of reference words: `gc_scannable_slots`, the deep copy's `scannable_slots`
and the image writer's `scannable_oop_slots` (`image.c`). -/

set_option autoImplicit false

namespace SmalltalkA

open List Option

/-- `scannable_oop_slots`. -/
def scannableOopSlots (formats : Formats) (obj : Obj) : Nat :=
  match formats obj.classIndex with
  | none => obj.payload.length
  | some fmt =>
    if formatType fmt = fmtVariableByte then 0
    else if formatType fmt = fmtCompiledMethod then
      match obj.payload with
      | [] => 0
      | header :: _ => 1 + methodNumLiterals header
    else obj.payload.length

/-- The words that hold oops by `format.h` and `compiled_method.h`: the instance variables of a
byte-indexable object, header and literals of a method, else all. -/
def oopWords (formats : Formats) (obj : Obj) : Nat :=
  match (formats obj.classIndex).map formatType with
  | some 2 => ((formats obj.classIndex).map formatInstVars).getD 0
  | some 6 => 1 + methodNumLiterals (obj.payload.headD 0)
  | _ => obj.payload.length

/-- The object has the words of its layout; a method starts with its header. -/
structure Obj.LaidOut (formats : Formats) (obj : Obj) : Prop where
  fits : oopWords formats obj ≤ obj.payload.length
  header : ∀ fmt,formats obj.classIndex = some fmt → formatType fmt = fmtCompiledMethod →
    obj.payload ≠ []

/-- The scanners take the same words for references, and none takes a reference for raw. -/
def ScannersAgree (formats : Formats) (obj : Obj) : Prop :=
  (∀ i < obj.payload.length,(i < scannableSlots formats obj ↔ i < gcScannableSlots formats obj) ∧
    (i < scannableOopSlots formats obj ↔ i < gcScannableSlots formats obj)) ∧
  ∀ i < obj.payload.length,
    (gcScannableSlots formats obj ≤ i ∨ scannableSlots formats obj ≤ i ∨
      scannableOopSlots formats obj ≤ i) → oopWords formats obj ≤ i

/-- A byte-indexable object has no instance variables. The number of arguments and the lowest two
bits of the number of temporaries, read as one number, are a method's number of literals; without
bytecodes, a larger number does too. -/
def ScannersMatch (formats : Formats) (obj : Obj) : Prop :=
  ∀ fmt,formats obj.classIndex = some fmt →
    (formatType fmt = fmtVariableByte → formatInstVars fmt = 0) ∧
    (formatType fmt = fmtCompiledMethod → ∀ v ∈ obj.payload.head?,
      min (methodNumArgs v + 256 * (methodNumTemps v % 4)) (obj.payload.length - 1) =
        methodNumLiterals v)

/-- Bits 9 to 0 of the header's value are the lowest ten above its tag. -/
theorem lowHeaderBits (v : Nat) :
    (smallIntVal v % 1024).toNat = methodNumArgs v + 256 * (methodNumTemps v % 4) := by
  have hval : smallIntVal v % 1024 = (v / 2 % 1024 : Nat) := by
    unfold smallIntVal wordSpan
    split <;> omega
  rw [hval,Int.toNat_natCast]
  unfold methodNumArgs methodNumTemps
  omega

theorem below_iff {n a b : Nat} (hb : b ≤ n) : (∀ i < n,i < a ↔ i < b) ↔ min a n = b := by
  constructor
  · intro h
    by_contra hne
    rcases Nat.lt_or_gt_of_ne hne with hlt | hlt
    · have := h (min a n) (by omega)
      omega
    · have := h b (by omega)
      omega
  · intro h i hi
    omega

section

variable {formats : Formats} {obj : Obj} {fmt : Oop}

/-- Agreement in terms of the counts, where the collector's is that of the layout. -/
theorem scannersAgree_counts (hgc : gcScannableSlots formats obj = oopWords formats obj)
    (hfits : oopWords formats obj ≤ obj.payload.length) :
    ScannersAgree formats obj ↔
      min (scannableSlots formats obj) obj.payload.length = oopWords formats obj ∧
      min (scannableOopSlots formats obj) obj.payload.length = oopWords formats obj := by
  rw [← below_iff hfits,← below_iff hfits]
  unfold ScannersAgree
  rw [hgc]
  constructor
  · intro h
    exact ⟨fun i hi => (h.1 i hi).1,fun i hi => (h.1 i hi).2⟩
  · intro h
    refine ⟨fun i hi => ⟨h.1 i hi,h.2 i hi⟩,fun i hi hraw => ?_⟩
    have := h.1 i hi
    have := h.2 i hi
    omega

/-- The three scanners agree on an object laid out as its format says exactly if the bit fields that
they read agree. -/
theorem scanners_agree_iff (h : obj.LaidOut formats) :
    ScannersAgree formats obj ↔ ScannersMatch formats obj := by
  have hfits := h.fits
  unfold ScannersMatch
  cases hfmt : formats obj.classIndex with
  | none =>
    have hoops : oopWords formats obj = obj.payload.length := by simp [oopWords,hfmt]
    rw [scannersAgree_counts (by simp [gcScannableSlots,slotsToScan,hfmt,hoops]) hfits]
    simp [scannableSlots,slotsToScan,scannableOopSlots,hfmt,hoops]
  | some fmt =>
    simp only [some.injEq,forall_eq']
    by_cases hbyte : formatType fmt = 2
    · have hoops : oopWords formats obj = formatInstVars fmt := by simp [oopWords,hfmt,hbyte]
      rw [hoops] at hfits
      rw [scannersAgree_counts
        (by simp [gcScannableSlots,slotsToScan,hfmt,hbyte,fmtVariableByte,hoops]) (hoops ▸ hfits)]
      simp only [scannableSlots,slotsToScan,scannableOopSlots,hfmt,hbyte,fmtVariableByte,
        fmtCompiledMethod,hoops,if_true,true_implies]
      omega
    · by_cases hmethod : formatType fmt = 6
      · obtain ⟨v,vs,hp⟩ := exists_cons_of_ne_nil (h.header fmt hfmt hmethod)
        have hoops : oopWords formats obj = 1 + methodNumLiterals v := by
          simp [oopWords,hfmt,hmethod,hp]
        have hcount : ∀ f,slotsToScan f formats obj = min (1 + f v) (vs.length + 1) := fun f => by
          simp [slotsToScan,hfmt,hmethod,hp,fmtVariableByte,fmtCompiledMethod]
        have himage : scannableOopSlots formats obj = 1 + methodNumLiterals v := by
          simp [scannableOopSlots,hfmt,hmethod,hp,fmtVariableByte,fmtCompiledMethod]
        rw [hoops,hp,length_cons] at hfits
        rw [scannersAgree_counts (by rw [gcScannableSlots,hcount,hoops]; omega)
          (by rw [hoops,hp]; exact hfits)]
        simp only [scannableSlots,hcount,himage,hoops,lowHeaderBits,hp,hmethod,
          fmtVariableByte,fmtCompiledMethod,length_cons,head?_cons,mem_def,
          some.injEq,forall_eq',true_implies]
        omega
      · have hoops : oopWords formats obj = obj.payload.length := by
          unfold oopWords
          rw [hfmt]
          split
          · next h => exact absurd (Option.some.inj h) hbyte
          · next h => exact absurd (Option.some.inj h) hmethod
          · rfl
        rw [scannersAgree_counts (by simp [gcScannableSlots,slotsToScan,hfmt,hbyte,hmethod,
          fmtVariableByte,fmtCompiledMethod,hoops]) hfits]
        simp [scannableSlots,slotsToScan,scannableOopSlots,hfmt,hbyte,hmethod,fmtVariableByte,
          fmtCompiledMethod,hoops]

end

/-- A CompiledMethod of class 12 with one literal, the object at 512. -/
def methodObject (nArgs : Nat) : Obj :=
  ⟨clsCompiledMethod,0,0,0,[methodHeader nArgs 0 1 0 false false,512,0]⟩

def methodFormats : Formats := fun _ => some (smallIntOop (fmtCompiledMethod * 256))

theorem scanners_agree_unary : ScannersAgree methodFormats (methodObject 1) :=
  (scanners_agree_iff ⟨by decide,fun _ _ _ => by decide⟩).mpr (by
    rintro fmt ⟨⟩
    exact ⟨by decide,fun _ => by decide⟩)

/-- A method without arguments: the deep copy takes its literal for bytecodes. -/
theorem method_literal_raw : gcScannableSlots methodFormats (methodObject 0) = 2 ∧
    scannableOopSlots methodFormats (methodObject 0) = 2 ∧
    scannableSlots methodFormats (methodObject 0) = 1 ∧ oopWords methodFormats (methodObject 0) = 2 ∧
    ¬ ScannersAgree methodFormats (methodObject 0) := by
  refine ⟨by decide,by decide,by decide,by decide,fun h => ?_⟩
  exact absurd (h.1 1 (by decide)).1 (by decide)

end SmalltalkA
