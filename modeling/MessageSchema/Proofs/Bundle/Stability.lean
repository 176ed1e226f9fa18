import MessageSchema.Proofs.Bundle.SecondReading
import MessageSchema.Proofs.Bundle.RoundTrip

/-!
When the canonical text is a fixed point of reading and printing. Three things can be lost in the
first round and change the text in the second: the name of the root where a type refers to it, the
alias in front of a constant, and a definition that has become equal to another one.
-/
namespace MessageSchema

namespace Field

variable {f : Field}

theorem isLegible_reread (h : f.IsLegible) (htoken : TypeName.IsToken f.typeName)
    (hconst : f.isConstant = true) : f.reread.IsLegible := by
  have htype := typeName_reread hconst
  have hkind : f.reread.isConstant = true := by rw [isConstant_reread, hconst]
  have hmember : ¬ f.reread.isConstant = false := by simp [hkind]
  refine
    { typeName_ne := ?_
      typeName := ?_
      name := ?_
      constantText := fun _ => ?_
      unbounded := fun hnot => absurd hnot hmember
      noDefault := fun hnot => absurd hnot hmember }
  · rw [htype]
    exact htoken.normalize.ne_empty
  · rw [htype]
    exact htoken.normalize.isPhrase
  · rw [name_reread]
    exact h.name
  · rw [constantText_reread]
    exact h.constantText hconst

theorem takeWhile_constantLine (h : f.IsLegible) (htoken : TypeName.IsToken f.typeName) :
    (Text.trim f.constantLine).takeWhile (· ≠ ' ') = f.typeName.toList := by
  rw [trim_constantLine h]
  apply Declaration.takeWhile_append_stop
  · intro c hc
    have hblank := htoken.solid c hc
    have hne : c ≠ ' ' := by
      rintro rfl
      exact absurd hblank (by decide)
    simpa using hne
  · simp

theorem normalize_of_printedLine_reread (h : f.IsLegible) (htoken : TypeName.IsToken f.typeName)
    (hconst : f.isConstant = true)
    (hline : Text.trim f.reread.printedLine = Text.trim f.printedLine) :
    TypeName.normalize f.typeName = f.typeName := by
  have hkind : f.reread.isConstant = true := by rw [isConstant_reread, hconst]
  have htoken' : TypeName.IsToken f.reread.typeName := by
    rw [typeName_reread hconst]
    exact htoken.normalize
  rw [printedLine, if_pos hkind, printedLine, if_pos hconst] at hline
  rw [← typeName_reread hconst, ← String.toList_inj, ← takeWhile_constantLine h htoken, ← hline,
    takeWhile_constantLine (isLegible_reread h htoken hconst) htoken']

theorem constantLine_reread (hconst : f.isConstant = true)
    (hspelling : TypeName.normalize f.typeName = f.typeName) :
    f.reread.constantLine = f.constantLine := by
  rw [constantLine, typeName_reread hconst, hspelling, name_reread, constantText_reread,
    constantLine]

end Field

namespace Definition

variable {d : Definition}

theorem printedFields_reread (d : Definition) :
    d.reread.printedFields = d.printedFields.map Field.reread := by
  rw [printedFields, constants_reread, members_reread, printedFields, List.map_append,
    map_reread_members]

theorem isSpelledOut_of_fieldLines_reread (h : d.IsLegible) (hread : d.IsReadable)
    (hlines : d.reread.fieldLines.map Text.trim = d.fieldLines.map Text.trim) :
    d.IsSpelledOut := by
  intro f hf
  obtain ⟨hmem, hconst⟩ := List.mem_filter.mp hf
  rw [fieldLines, printedFields_reread, fieldLines, List.map_map, List.map_map, List.map_map,
    List.map_inj_left] at hlines
  have hline := hlines f (mem_printedFields.mpr hmem)
  exact Field.normalize_of_printedLine_reread (h f hmem) (hread.typeName f hmem) hconst hline

theorem constantLines_reread (h : d.IsSpelledOut) : d.reread.constantLines = d.constantLines := by
  rw [constantLines, constants_reread, List.map_map, constantLines]
  refine List.map_congr_left fun f hf => ?_
  exact Field.constantLine_reread (List.mem_filter.mp hf).2 (h f hf)

theorem memberLines_reread (d : Definition) : d.reread.memberLines = d.memberLines := by
  rw [memberLines, members_reread, memberLines]

end Definition

namespace Bundle

variable {root d : Definition} {others : Bundle} {text : String}

theorem putMembers_reread (before : List Line) (d : Definition) :
    putMembers before d.reread = putMembers before d := by
  rw [putMembers, Definition.members_reread, Definition.memberLines_reread, putMembers]

theorem rootLines_rereadRoot (h : d.IsSpelledOut) : rootLines d.rereadRoot = rootLines d := by
  have hroot : rootLines d.rereadRoot = putMembers d.reread.constantLines d.reread := rfl
  rw [hroot, putMembers_reread, Definition.constantLines_reread h, rootLines]

theorem otherLines_reread (h : d.IsSpelledOut) : otherLines d.reread = otherLines d := by
  have hheader : d.reread.headerLine = d.headerLine := rfl
  rw [otherLines, putMembers_reread, Definition.constantLines_reread h, hheader, otherLines]

theorem print_reread (h : ∀ d ∈ root :: others, d.IsSpelledOut) :
    print (reread (root :: others)) = print (root :: others) := by
  have hothers : (others.map Definition.reread).flatMap otherLines = others.flatMap otherLines := by
    rw [List.flatMap_map]
    exact List.flatMap_congr fun d hd => otherLines_reread (h d (List.mem_cons_of_mem root hd))
  have hlines : printLines (reread (root :: others)) = printLines (root :: others) := by
    rw [reread, printLines, hothers, rootLines_rereadRoot (h root List.mem_cons_self), printLines]
  rw [print, hlines, print]

/-- The root has lost its name, so nothing but another definition can be repeated. -/
theorem nodup_reread_iff (hnamed : ∀ d ∈ others, d.name ≠ none) :
    (reread (root :: others)).Nodup ↔ (others.map Definition.reread).Nodup := by
  rw [reread, List.nodup_cons]
  refine and_iff_right fun hmem => ?_
  obtain ⟨d, hd, heq⟩ := List.mem_map.mp hmem
  exact hnamed d hd (congrArg Definition.name heq)

theorem echo_eq_reread_iff (h : ∀ d ∈ root :: others, d.IsParsed)
    (hnamed : ∀ d ∈ others, d.name ≠ none) :
    echo (root :: others) = reread (root :: others) ↔ (others.map Definition.reread).Nodup := by
  rw [echo, eraseDups_eq_self_iff, isDistinct_iff_nodup (isLiteralFree_of_mem_reread h),
    nodup_reread_iff hnamed]

theorem map_reread_eq_canonical (h : ∀ d ∈ others, d.IsSpelledOut) :
    others.map Definition.reread = others.map Definition.canonical :=
  List.map_congr_left fun d hd => Definition.reread_eq_canonical (h d hd)

theorem echo_eq_reread_of_print (h : IsLegible (root :: others))
    (hecho : IsLegible (echo (root :: others)))
    (hprint : print (echo (root :: others)) = print (root :: others)) :
    echo (root :: others) = reread (root :: others) := by
  obtain ⟨rest, hrest⟩ : ∃ rest, echo (root :: others) = root.rereadRoot :: rest :=
    ⟨_, List.eraseDups_cons⟩
  have hsections : Section.ofText (print (echo (root :: others))).toList =
      Section.ofText (print (root :: others)).toList := by rw [hprint]
  rw [hrest, ofText_print (hrest ▸ hecho), ofText_print h] at hsections
  have hlength := congrArg List.length hsections
  apply (eraseDups_sublist _).eq_of_length
  rw [← echo, hrest]
  simpa [reread] using hlength

theorem isSpelledOut_of_print_reread (h : IsLegible (root :: others))
    (hlegible : IsLegible (reread (root :: others))) (hread : ∀ d ∈ root :: others, d.IsReadable)
    (hprint : print (reread (root :: others)) = print (root :: others)) :
    ∀ d ∈ root :: others, d.IsSpelledOut := by
  have hsections : Section.ofText (print (reread (root :: others))).toList =
      Section.ofText (print (root :: others)).toList := by rw [hprint]
  rw [reread] at hlegible
  rw [reread, ofText_print hlegible, ofText_print h] at hsections
  obtain ⟨hfirst, hlater⟩ := List.cons.inj hsections
  rw [List.map_map, List.map_inj_left] at hlater
  refine List.forall_mem_cons.mpr ⟨?_, fun d hd => ?_⟩
  · exact Definition.isSpelledOut_of_fieldLines_reread (h.fields root List.mem_cons_self)
      (hread root List.mem_cons_self) hfirst
  · have hmem := List.mem_cons_of_mem root hd
    exact Definition.isSpelledOut_of_fieldLines_reread (h.fields d hmem) (hread d hmem)
      (List.cons.inj (hlater d hd)).2

/-- The echo is printed as the bundle is only when every line of the bundle is printed again. -/
theorem print_echo_eq_iff (h : IsParsed (root :: others)) (hecho : IsLegible (echo (root :: others)))
    (hnamed : ∀ d ∈ others, d.name ≠ none) (hread : ∀ d ∈ root :: others, d.IsReadable) :
    print (echo (root :: others)) = print (root :: others) ↔
      (∀ d ∈ root :: others, d.IsSpelledOut) ∧ (others.map Definition.canonical).Nodup := by
  have hnodup (hspelled : ∀ d ∈ root :: others, d.IsSpelledOut) :
      echo (root :: others) = reread (root :: others) ↔
        (others.map Definition.canonical).Nodup := by
    rw [echo_eq_reread_iff h.definitions hnamed,
      map_reread_eq_canonical fun d hd => hspelled d (List.mem_cons_of_mem root hd)]
  constructor
  · intro hprint
    have hsame := echo_eq_reread_of_print h.isLegible hecho hprint
    rw [hsame] at hprint hecho
    have hspelled := isSpelledOut_of_print_reread h.isLegible hecho hread hprint
    exact ⟨hspelled, (hnodup hspelled).mp hsame⟩
  · rintro ⟨hspelled, hdistinct⟩
    rw [(hnodup hspelled).mpr hdistinct, print_reread hspelled]

/-- The canonical text is read as a bundle that has the same canonical text. -/
def IsStable (b : Bundle) : Prop := ∃ b', parse {} b.print = .ok b' ∧ b'.print = b.print

def printChars (b : Bundle) : List Char := Text.trim (Text.unlines b.printLines)

theorem isStable_iff_printChars {b : Bundle} : IsStable b ↔
    (ofSections (Section.ofText b.printChars) >>= resolve).map printChars = .ok b.printChars := by
  have hparse : parse {} b.print = ofSections (Section.ofText b.printChars) >>= resolve := by
    rw [printChars, ← String.toList_ofList (l := Text.trim (Text.unlines b.printLines))]
    rfl
  rw [IsStable, hparse, Attempts.map_eq_ok_iff]
  exact exists_congr fun b' => and_congr_right fun _ => String.ofList_inj

instance (b : Bundle) : Decidable b.IsStable := decidable_of_iff _ isStable_iff_printChars.symm

/-- Texts that can be read but whose canonical text is not a fixed point: a type refers to the root
by its name, an array constant has an alias for its type, two definitions only differ in the place
of a constant, a name holds a blank, and a definition has no name. -/
theorem not_isStable_of_loss :
    (∃ b, parse {} "MSG: pkg/A\nint32 x\n===\nMSG: pkg/B\nA a" = .ok b ∧ ¬ IsStable b) ∧
    (∃ b, parse {} "char[] X=5" = .ok b ∧ ¬ IsStable b) ∧
    (∃ b, parse {} "int32 z\n===\nMSG: p/A\nint32 x\nint32 C=1\n===\nMSG: p/A\nint32 C=1\nint32 x" =
      .ok b ∧ ¬ IsStable b) ∧
    (∃ b, parse {} "A a\n===\nMSG: x y/A\nint32 z" = .ok b ∧ ¬ IsStable b) ∧
    (∃ b, parse {} "int32 x\n===\nint32 y" = .ok b ∧ ¬ IsStable b) := by
  let x : Field := .plain "int32" "x"
  let c : Field := (Field.plain "int32" "C").asConstant "1"
  refine ⟨⟨[⟨some "pkg/A", [x]⟩, ⟨some "pkg/B", [.plain "pkg/A" "a"]⟩], rfl, ?_⟩,
    ⟨[⟨none, [((Field.plain "char" "X").asArray none).asConstant "5"]⟩], rfl, ?_⟩,
    ⟨[⟨none, [.plain "int32" "z"]⟩, ⟨some "p/A", [x, c]⟩, ⟨some "p/A", [c, x]⟩], rfl, ?_⟩,
    ⟨[⟨none, [.plain "x y/A" "a"]⟩, ⟨some "x y/A", [.plain "int32" "z"]⟩], rfl, ?_⟩,
    ⟨[⟨none, [x]⟩, ⟨none, [.plain "int32" "y"]⟩], rfl, ?_⟩⟩ <;> decide +kernel

/-- The canonical text of what has been read is a fixed point exactly when no type refers to the
root by its name, no constant has a type with an alias, and no definition repeats another one but
for the place of its constants. -/
theorem isStable_iff (h : parse {} text = .ok (root :: others))
    (hnamed : ∀ d ∈ others, d.name ≠ none)
    (htoken : ∀ d ∈ root :: others, ∀ f ∈ d.fields, f.isComplex = true →
      TypeName.IsToken f.typeName) :
    IsStable (root :: others) ↔
      (∀ d ∈ root :: others, ∀ f ∈ d.fields, f.isComplex = true → root.name ≠ some f.typeName) ∧
      (∀ d ∈ root :: others, ∀ f ∈ d.constants, f.typeName ≠ "char" ∧ f.typeName ≠ "byte") ∧
      (others.map Definition.canonical).Nodup := by
  have hparsed := isParsed_of_parse h
  have hread : ∀ d ∈ root :: others, d.IsReadable := fun d hd =>
    (hparsed.definitions d hd).isReadable (htoken d hd)
  have hspelling : (∀ d ∈ root :: others, d.IsSpelledOut) ↔
      ∀ d ∈ root :: others, ∀ f ∈ d.constants, f.typeName ≠ "char" ∧ f.typeName ≠ "byte" :=
    forall₂_congr fun d _ => forall₂_congr fun f _ => TypeName.normalize_eq_self_iff
  simp only [IsStable, parse_print_eq_ok_iff hparsed hnamed htoken, and_assoc, exists_eq_left]
  refine and_congr_right fun hroot => ?_
  have hecho : IsLegible (echo (root :: others)) := by
    have hagain := (parse_print_eq_ok_iff hparsed hnamed htoken).mpr ⟨rfl, hroot⟩
    exact (isParsed_of_parse hagain).isLegible
  rw [print_echo_eq_iff hparsed hecho hnamed hread, hspelling]

theorem isStable_of_constant_last : IsStable
    [ { name := none
        fields := [.plain "pkg/Point" "origin", (Field.plain "int32" "LIMIT").asConstant "3"] },
      { name := some "pkg/Point", fields := [.plain "float64" "x"] } ] := by
  have h : parse {} "Point origin\nint32 LIMIT=3\n===\nMSG: pkg/Point\nfloat64 x" = .ok
      [ { name := none
          fields := [.plain "pkg/Point" "origin", (Field.plain "int32" "LIMIT").asConstant "3"] },
        { name := some "pkg/Point", fields := [.plain "float64" "x"] } ] := rfl
  exact (isStable_iff h (by decide) (by decide +kernel)).mpr
    ⟨by decide, by decide, List.pairwise_singleton _ _⟩

end Bundle
end MessageSchema
