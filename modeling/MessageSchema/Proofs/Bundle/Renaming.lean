import MessageSchema.Bundle.Resolution
import MessageSchema.Proofs.Attempts

/-!
Resolution in place. All names are looked up before the first is put in place, and each renaming
finds its field again by its place; so a bundle ends up as it resolves, or stays as it was.
-/
namespace MessageSchema
namespace Bundle

variable {b : Bundle}

def renameAll (b : Bundle) (rs : List Renaming) : Bundle := rs.foldl rename b

theorem renameAll_flatMapM_cons {α : Type} (f : α → Except SchemaError (List Renaming)) (a : α)
    (as : List α) (start : Bundle) :
    ((a :: as).flatMapM f).map (renameAll start) =
      (f a).map (renameAll start) >>= fun next => (as.flatMapM f).map (renameAll next) := by
  rw [List.flatMapM_cons]
  cases f a with
  | error e => rfl
  | ok rs =>
    cases as.flatMapM f with
    | error e => rfl
    | ok rs' => simp [renameAll, bind, Except.bind, pure, Except.pure, Except.map]

theorem renameAll_field (before after : Bundle) (d : Definition) (package : Option String)
    (fs gs : List Field) (f : Field) :
    (b.fieldRenamings package before.length fs.length f).map
        (renameAll (before ++ { d with fields := fs ++ f :: gs } :: after)) =
      (b.resolveField package f).map
        fun f' => before ++ { d with fields := fs ++ f' :: gs } :: after := by
  rw [fieldRenamings, resolveField]
  cases hcomplex : f.isComplex with
  | false => rfl
  | true =>
    cases b.fullName package f.typeName with
    | error e => rfl
    | ok typeName => simp [Except.map, renameAll, rename, List.modify_eq_take_drop, hcomplex]

theorem renameAll_fields (before after : Bundle) (d : Definition) (package : Option String)
    (fs gs : List Field) :
    ((gs.zipIdx fs.length).flatMapM fun (g, j) =>
        b.fieldRenamings package before.length j g).map
        (renameAll (before ++ { d with fields := fs ++ gs } :: after)) =
      (gs.mapM (b.resolveField package)).map
        fun gs' => before ++ { d with fields := fs ++ gs' } :: after := by
  -- The fields in front are resolved already, and each step moves one field over to those.
  induction gs generalizing fs with
  | nil => rfl
  | cons g gs ih =>
    rw [List.zipIdx_cons, renameAll_flatMapM_cons, renameAll_field, List.mapM_cons]
    cases b.resolveField package g with
    | error e => rfl
    | ok g' =>
      have hnext := ih (fs ++ [g'])
      simp only [List.length_append, List.length_singleton, List.append_assoc,
        List.singleton_append] at hnext
      refine hnext.trans ?_
      cases gs.mapM (b.resolveField package) <;> rfl

theorem renameAll_definitions (before ds : Bundle) :
    ((ds.zipIdx before.length).flatMapM fun (d, i) => b.definitionRenamings i d).map
        (renameAll (before ++ ds)) =
      (ds.mapM (resolveDefinition b)).map (before ++ ·) := by
  induction ds generalizing before with
  | nil => rfl
  | cons d ds ih =>
    have hfields := renameAll_fields (b := b) before ds d d.package? [] d.fields
    rw [List.zipIdx_cons, renameAll_flatMapM_cons, List.mapM_cons, resolveDefinition]
    simp only [List.length_nil, List.nil_append] at hfields
    simp only [definitionRenamings, hfields]
    cases d.fields.mapM (b.resolveField d.package?) with
    | error e => rfl
    | ok fields =>
      have hnext := ih (before ++ [{ d with fields }])
      simp only [List.length_append, List.length_singleton, List.append_assoc,
        List.singleton_append] at hnext
      refine hnext.trans ?_
      cases ds.mapM (resolveDefinition b) <;> rfl

theorem renameAll_renamings (b : Bundle) : b.renamings.map b.renameAll = b.resolve := by
  have h := renameAll_definitions (b := b) [] b
  refine h.trans ?_
  rw [resolve]
  cases b.mapM (resolveDefinition b) <;> rfl

/-- In place, a bundle is replaced by what it resolves to; when it does not resolve, it stays. -/
theorem run_resolveInPlace (b : Bundle) :
    resolveInPlace.run b =
      match b.resolve with
      | .ok resolved => .ok () resolved
      | .error e => .error e b := by
  have hloop (rs : List Renaming) (start : Bundle) :
      (rs.forM fun r => modify fun b : Bundle => b.rename r : EStateM SchemaError Bundle Unit).run
        start = .ok () (start.renameAll rs) := by
    induction rs generalizing start with
    | nil => rfl
    | cons r rs ih => exact ih (start.rename r)
  rw [← renameAll_renamings]
  simp only [resolveInPlace, EStateM.run_bind, EStateM.run_get]
  cases b.renamings with
  | ok rs => exact hloop rs b
  | error e => rfl

theorem run_resolveInPlace_eq_ok_iff {b' : Bundle} :
    resolveInPlace.run b = .ok () b' ↔ b.resolve = .ok b' := by
  rw [run_resolveInPlace]
  cases b.resolve <;> simp

end Bundle
end MessageSchema
