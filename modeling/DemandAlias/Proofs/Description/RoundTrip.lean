import DemandAlias.Description.Codec

/-!
# Descriptions written and read back

A reader and a writer belong together if the reader only gives values of a certain kind, and
gives each of these back when it has been written (`Json.Inverts`). Then writing what was read
and reading it again changes nothing, and the values that survive are just those of the kind.

Of a description, the kind is that its numbers fit, integers in 64 bits and places in 32, and
that no operand is a local called `null`: that text is read as the constant
(`Description.ofJson?_toJson_iff`).
-/

namespace DemandAlias

open Json (str? list? optional? required? default? fields? member? intWithin?)

/-! ### Readers and writers -/

namespace Json

variable {α β : Type}

/-- What is read, if anything is, is of a kind. -/
def Gives (kind : α → Prop) (x : Option α) : Prop := ∀ a, x = some a → kind a

namespace Gives

variable {kind : α → Prop}

theorem none : Gives kind none := fun _ h => nomatch h

theorem some {a : α} (h : kind a) : Gives kind (some a) := fun _ heq => some.inj heq ▸ h

theorem bind {x : Option β} {f : β → Option α} (h : ∀ b, x = .some b → Gives kind (f b)) :
    Gives kind (x >>= f) := by
  intro a ha
  obtain ⟨b, hb, ha⟩ := bind_eq_some_iff.1 ha
  exact h b hb a ha

theorem ite {c : Prop} [Decidable c] {x y : Option α} (hx : Gives kind x) (hy : Gives kind y) :
    Gives kind (if c then x else y) := by
  split
  · exact hx
  · exact hy

variable {read : Json → Option α}

/-- A field that must be given is of the kind that its reader gives. -/
theorem required (h : ∀ j, Gives kind (read j)) (value : Option Json) :
    Gives kind (required? read value) :=
  bind fun j _ => h j

/-- A field that may be left out is of the kind that its reader gives, if its default is. -/
theorem default (h : ∀ j, Gives kind (read j)) {fallback : α} (hfallback : kind fallback) :
    ∀ value, Gives kind (default? fallback read value)
  | .none => some hfallback
  | .some j => h j

theorem optional (h : ∀ j, Gives kind (read j)) (j : Json) :
    Gives (fun a => ∀ b ∈ a, kind b) (optional? read j) := by
  unfold optional?
  split
  · exact some fun b hb => absurd hb (Option.not_mem_none b)
  · intro a ha
    obtain ⟨b, hb, rfl⟩ := map_eq_some_iff.1 ha
    exact fun c hc => some.inj hc ▸ h _ b hb

theorem list (h : ∀ j, Gives kind (read j)) (j : Json) :
    Gives (fun as => ∀ a ∈ as, kind a) (list? read j) := by
  cases j with
  | arr js =>
    rw [list?]
    induction js with
    | nil => exact some fun a ha => nomatch ha
    | cons j _ ih =>
      rw [List.mapM_cons]
      exact bind fun a ha => bind fun as has =>
        some (forall_mem_cons.2 ⟨h j a ha, ih as has⟩)
  | _ => exact none

end Gives

/-- Whatever is read is of a kind, and what is of this kind is read back when it is written. -/
structure Inverts (read : Json → Option α) (write : α → Json) (kind : α → Prop) : Prop where
  gives : ∀ j, Gives kind (read j)
  read_write : ∀ {a}, kind a → read (write a) = some a

namespace Inverts

variable {read : Json → Option α} {write : α → Json} {kind : α → Prop}

theorem list (h : Inverts read write kind) :
    Inverts (list? read) (fun as => .arr (as.map write)) (∀ a ∈ ·, kind a) where
  gives := .list h.gives
  read_write {as} has := by
    rw [list?]
    induction as with
    | nil => rfl
    | cons _ _ ih =>
      obtain ⟨ha, has⟩ := forall_mem_cons.1 has
      rw [map_cons, List.mapM_cons, h.read_write ha, ih has]
      rfl

/-- A value that is not written as null may be one that is optional. -/
theorem read_optional (h : Inverts read write kind) {a : α} (hnull : write a ≠ .null)
    (ha : kind a) : optional? read (write a) = some (some a) := by
  unfold optional?
  split
  · next heq => exact absurd heq hnull
  · rw [h.read_write ha]
    rfl

end Inverts

theorem inverts_str : Inverts str? .str (fun _ => True) where
  gives _ _ _ := trivial
  read_write _ := rfl

end Json

/-! ### Constants and operands -/

/-- Whether an integer fits in 64 bits. -/
def Constant.fits : Constant → Bool
  | .int value => Int64.minValue.toInt ≤ value ∧ value ≤ Int64.maxValue.toInt
  | .str _ | .null => true

/-- Whether the integer of a constant operand fits in 64 bits. -/
def Operand.fits : Operand String → Bool
  | .const c => c.fits
  | .var _ => true

theorem Constant.inverts (isNothing : Json → Bool) :
    Json.Inverts (ofJsonWith? isNothing) toJson (·.fits = true) where
  gives j := by
    unfold ofJsonWith?
    split
    · exact .ite (.some rfl) .none
    · next value =>
      refine .ite (fun c h => ?_) (.ite (fun c h => ?_) (.ite (.some rfl) .none))
      · obtain ⟨n, hn, rfl⟩ := map_eq_some_iff.1 h
        cases value with
        | int m =>
          obtain ⟨hm, rfl⟩ : _ ∧ m = n := by simpa [intWithin?] using hn
          exact decide_eq_true hm
        | _ => cases hn
      · obtain ⟨text, -, rfl⟩ := map_eq_some_iff.1 h
        rfl
    · exact .none
  read_write {c} h := by
    cases c with
    | int =>
      rw [toJson, ofJsonWith?, ofTagged?, if_pos rfl, intWithin?, if_pos (of_decide_eq_true h)]
      rfl
    | str | null => rfl

theorem Operand.inverts :
    Json.Inverts ofJson? toJson fun o => o.fits = true ∧ o ≠ .var "null" where
  gives j o h := by
    unfold ofJson? at h
    split at h
    · next c hc =>
      cases h
      exact ⟨(Constant.inverts isNull).gives j c hc, fun heq => nomatch heq⟩
    · next hnone =>
      obtain ⟨name, hname, rfl⟩ := map_eq_some_iff.1 h
      refine ⟨rfl, fun heq => ?_⟩
      cases heq
      cases j <;> cases hname
      cases hnone
  read_write {o} h := by
    cases o with
    | const => rw [toJson, ofJson?, (Constant.inverts isNull).read_write h.1]
    | var name =>
      have hname : name ≠ "null" := fun heq => h.2 (heq ▸ rfl)
      rw [toJson, ofJson?, Constant.ofJsonWith?, if_neg hname]
      rfl

theorem Operand.toJson_ne_null (o : Operand String) : o.toJson ≠ .null := by
  cases o with
  | var => exact Json.noConfusion
  | const c => cases c <;> exact Json.noConfusion

/-! ### Instructions -/

namespace Instruction

/-- The operands of an instruction: the arguments of a call, what a branch compares with, and
    what is returned. -/
def operands : Instruction → List (Operand String)
  | .call _ _ args | .virtualCall _ _ _ args => args
  | .branch _ _ rhs _ => [rhs]
  | .ret value => value.toList
  | _ => []

/-- Whether the numbers of an instruction other than those of its operands fit. -/
def ownFits : Instruction → Bool
  | .const _ value => value.fits
  | .branch _ _ _ target | .jump target => target < UInt32.size
  | _ => true

/-- Whether the numbers of an instruction fit, integers in 64 bits and places in 32. -/
def fits (i : Instruction) : Bool := i.operands.all Operand.fits && i.ownFits

theorem fits_iff (i : Instruction) : (i.fits = true ∧ .var "null" ∉ i.operands) ↔
    (∀ o ∈ i.operands, o.fits = true ∧ o ≠ .var "null") ∧ i.ownFits = true := by
  rw [fits, and_eq_true, List.all_eq_true]
  constructor
  · rintro ⟨⟨hfits, hown⟩, hnull⟩
    exact ⟨fun o ho => ⟨hfits o ho, fun heq => hnull (heq ▸ ho)⟩, hown⟩
  · rintro ⟨hoperands, hown⟩
    exact ⟨⟨fun o ho => (hoperands o ho).1, hown⟩, fun hnull => (hoperands _ hnull).2 rfl⟩

theorem inverts_target : Json.Inverts target? (fun n => .int n) (· < UInt32.size) where
  gives j n h := by
    obtain ⟨m, hm, rfl⟩ := map_eq_some_iff.1 h
    cases j with
    | int k =>
      obtain ⟨⟨hlow, hhigh⟩, rfl⟩ : _ ∧ k = m := by simpa [intWithin?] using hm
      have : UInt32.size = 4294967296 := rfl
      omega
    | _ => cases hm
  read_write {n} h := by
    have hbounds : 0 ≤ (n : Int) ∧ (n : Int) ≤ (UInt32.size - 1 : Nat) := by omega
    rw [target?, intWithin?, if_pos hbounds]
    rfl

theorem gives_ofOperation? (op : String) (contents : Json) :
    Json.Gives (fun i => i.fits = true ∧ .var "null" ∉ i.operands) (ofOperation? op contents) := by
  have hargs : ∀ value, Json.Gives (fun os => ∀ o ∈ os, o.fits = true ∧ o ≠ .var "null")
      (default? [] (list? Operand.ofJson?) value) :=
    .default (.list Operand.inverts.gives) fun _ h => nomatch h
  simp only [fits_iff]
  unfold ofOperation?
  refine .ite (.bind fun fields _ => ?new) <| .ite (.bind fun fields _ => ?const) <|
    .ite (.bind fun fields _ => ?copy) <| .ite (.bind fun fields _ => ?load) <|
    .ite (.bind fun fields _ => ?store) <| .ite (.bind fun fields _ => ?call) <|
    .ite (.bind fun fields _ => ?virtualCall) <| .ite (.bind fun fields _ => ?branch) <|
    .ite (.bind fun fields _ => ?jump) <| .ite (.bind fun fields _ => ?ret) <| .ite ?nop .none
  case new | copy =>
    split
    · exact .bind fun _ _ => .bind fun _ _ => .some ⟨fun _ h => (nomatch h), rfl⟩
    · exact .none
  case load | store =>
    split
    · exact .bind fun _ _ => .bind fun _ _ => .bind fun _ _ =>
        .some ⟨fun _ h => (nomatch h), rfl⟩
    · exact .none
  case const =>
    split
    · exact .bind fun _ _ => .bind fun value hvalue =>
        .some ⟨fun _ h => (nomatch h),
          Json.Gives.required (Constant.inverts _).gives _ value hvalue⟩
    · exact .none
  case call =>
    split
    · exact .bind fun _ _ => .bind fun _ _ => .bind fun args h => .some ⟨hargs _ args h, rfl⟩
    · exact .none
  case virtualCall =>
    split
    · exact .bind fun _ _ => .bind fun _ _ => .bind fun _ _ => .bind fun args h =>
        .some ⟨hargs _ args h, rfl⟩
    · exact .none
  case branch =>
    split
    · refine .bind fun _ _ => .bind fun _ _ => .bind fun rhs hrhs => .bind fun target htarget =>
        .some ⟨forall_mem_singleton.2 ?_, decide_eq_true ?_⟩
      · exact Json.Gives.required Operand.inverts.gives _ rhs hrhs
      · exact Json.Gives.required inverts_target.gives _ target htarget
    · exact .none
  case jump =>
    split
    · exact .bind fun target htarget => .some ⟨fun _ h => (nomatch h),
        decide_eq_true (Json.Gives.required inverts_target.gives _ target htarget)⟩
    · exact .none
  case ret =>
    split
    · refine .bind fun value hvalue => .some ⟨fun o ho => ?_, rfl⟩
      exact Json.Gives.default (.optional Operand.inverts.gives)
        (fun _ h => absurd h (Option.not_mem_none _)) _
        value hvalue o (mem_toList.1 ho)
    · exact .none
  case nop =>
    split
    · exact .some ⟨fun _ h => (nomatch h), rfl⟩
    · exact .some ⟨fun _ h => (nomatch h), rfl⟩
    · exact .none

/-- What an instruction is written as is legible. -/
theorem isLegible_toJson (i : Instruction) (n : Nat) : i.toJson.isLegible (n + 3) = true := by
  have hoperand : ∀ (o : Operand String) (n : Nat), o.toJson.isLegible (n + 1) = true := by
    intro o n
    cases o with
    | var => rfl
    | const c => cases c <;> rfl
  have hargs : ∀ (args : List (Operand String)) (n : Nat),
      Json.areLegible (n + 1) (args.map Operand.toJson) = true := by
    intro args n
    induction args with
    | nil => rfl
    | cons _ _ ih => rw [map_cons, Json.areLegible, hoperand, ih]; rfl
  cases i with
  | const _ value => cases value <;> rfl
  | call lhs =>
    cases lhs <;> simp [toJson, nameToJson, Json.isLegible, Json.membersLegible, hargs]
  | virtualCall lhs =>
    cases lhs <;> simp [toJson, nameToJson, Json.isLegible, Json.membersLegible, hargs]
  | branch _ comparison =>
    cases comparison <;>
      simp [toJson, Comparison.toJson, Json.isLegible, Json.membersLegible, hoperand]
  | ret value =>
    cases value <;> simp [toJson, Json.isLegible, Json.membersLegible, hoperand]
  | _ => rfl

theorem read_nameToJson (name : Option String) :
    optional? str? (nameToJson name) = some name := by
  cases name <;> rfl

/-- The parts that all calls have are read again. -/
theorem read_call (lhs : Option String) {args : List (Operand String)}
    (hargs : ∀ o ∈ args, o.fits = true ∧ o ≠ .var "null")
    (f : Option String → List (Operand String) → Instruction) :
    (optional? str? (nameToJson lhs) >>= fun l =>
      list? Operand.ofJson? (.arr (args.map Operand.toJson)) >>= fun os => some (f l os)) =
        some (f lhs args) := by
  rw [read_nameToJson, Operand.inverts.list.read_write hargs]
  rfl

theorem inverts : Json.Inverts ofJson? toJson fun i =>
    i.fits = true ∧ .var "null" ∉ i.operands where
  gives j := by
    refine .ite ?_ .none
    unfold ofTagged?
    split
    · split
      · exact gives_ofOperation? _ _
      · exact .none
    · exact gives_ofOperation? _ _
    · exact .none
  read_write {i} h := by
    obtain ⟨hoperands, hown⟩ := (fits_iff i).1 h
    rw [ofJson?, if_pos (show i.toJson.isLegible maxDepth = true from i.isLegible_toJson 120)]
    cases i with
    | new => rfl
    | const lhs value =>
      have hvalue : Constant.ofJson? value.toJson = some value :=
        (Constant.inverts _).read_write hown
      show (Constant.ofJson? value.toJson >>= fun c => some (const lhs c)) = _
      rw [hvalue]
      rfl
    | copy | load | store => rfl
    | call lhs method => exact read_call lhs hoperands (call · method ·)
    | virtualCall lhs base name => exact read_call lhs hoperands (virtualCall · base name ·)
    | branch lhs comparison rhs target =>
      have hcomparison : Comparison.ofJson? comparison.toJson = some comparison := by
        cases comparison <;> rfl
      have hrhs : Operand.ofJson? rhs.toJson = some rhs :=
        Operand.inverts.read_write (hoperands rhs mem_cons_self)
      have htarget : target? (.int target) = some target :=
        inverts_target.read_write (of_decide_eq_true hown)
      show (Comparison.ofJson? comparison.toJson >>= fun c =>
        Operand.ofJson? rhs.toJson >>= fun o =>
        target? (.int target) >>= fun t => some (branch lhs c o t)) = _
      rw [hcomparison, hrhs, htarget]
      rfl
    | jump target =>
      have htarget : target? (.int target) = some target :=
        inverts_target.read_write (of_decide_eq_true hown)
      show (target? (.int target) >>= fun t => some (jump t)) = _
      rw [htarget]
      rfl
    | ret value =>
      cases value with
      | none => rfl
      | some o =>
        have ho : optional? Operand.ofJson? o.toJson = some (some o) :=
          Operand.inverts.read_optional o.toJson_ne_null (hoperands o mem_cons_self)
        show (optional? Operand.ofJson? o.toJson >>= fun v => some (ret v)) = _
        rw [ho]
        rfl
    | nop => rfl

end Instruction

/-! ### Declarations -/

theorem ClassDecl.inverts : Json.Inverts ofJson? toJson fun _ => True where
  gives _ _ _ := trivial
  read_write {c} _ := by
    show (optional? str? (Instruction.nameToJson c.superclass) >>= fun superclass =>
      some (⟨c.name, superclass⟩ : ClassDecl)) = _
    rw [Instruction.read_nameToJson]
    rfl

theorem MethodDecl.inverts : Json.Inverts ofJson? toJson fun m =>
    ∀ i ∈ m.body, i.fits = true ∧ .var "null" ∉ i.operands where
  gives j := by
    refine .bind fun fields _ => ?_
    split
    · exact .bind fun _ _ => .bind fun _ _ => .bind fun _ _ => .bind fun body hbody =>
        .some (Json.Gives.default (.list Instruction.inverts.gives)
          (fun _ h => absurd h not_mem_nil) _ body hbody)
    · exact .none
  read_write {m} h := by
    have hparams : list? str? (.arr (m.params.map .str)) = some m.params :=
      Json.inverts_str.list.read_write fun _ _ => trivial
    have hbody : list? Instruction.ofJson? (.arr (m.body.map Instruction.toJson)) = some m.body :=
      Instruction.inverts.list.read_write h
    show (optional? str? (Instruction.nameToJson m.receiver) >>= fun receiver =>
      list? str? (.arr (m.params.map .str)) >>= fun params =>
      list? Instruction.ofJson? (.arr (m.body.map Instruction.toJson)) >>= fun body =>
        some (⟨m.name, receiver, params, body⟩ : MethodDecl)) = _
    rw [Instruction.read_nameToJson, hparams, hbody]
    rfl

namespace Description

/-- The operands of all instructions. -/
def operands (d : Description) : List (Operand String) :=
  d.methods.flatMap fun m => m.body.flatMap Instruction.operands

/-- Whether all numbers fit, integers in 64 bits and places in 32. -/
def fits (d : Description) : Bool := d.methods.all fun m => m.body.all Instruction.fits

theorem inverts : Json.Inverts ofJson? toJson fun d =>
    ∀ m ∈ d.methods, ∀ i ∈ m.body, i.fits = true ∧ .var "null" ∉ i.operands where
  gives j := by
    refine .bind fun fields _ => ?_
    split
    · exact .bind fun _ _ => .bind fun methods hmethods => .bind fun _ _ =>
        .some (Json.Gives.required (.list MethodDecl.inverts.gives) _ methods hmethods)
    · exact .none
  read_write {d} h := by
    have hclasses : list? ClassDecl.ofJson? (.arr (d.classes.map ClassDecl.toJson)) =
        some d.classes := ClassDecl.inverts.list.read_write fun _ _ => trivial
    have hmethods : list? MethodDecl.ofJson? (.arr (d.methods.map MethodDecl.toJson)) =
        some d.methods := MethodDecl.inverts.list.read_write h
    have hunreachable : list? str? (.arr (d.unreachable.map .str)) = some d.unreachable :=
      Json.inverts_str.list.read_write fun _ _ => trivial
    show (list? ClassDecl.ofJson? (.arr (d.classes.map ClassDecl.toJson)) >>= fun classes =>
      list? MethodDecl.ofJson? (.arr (d.methods.map MethodDecl.toJson)) >>= fun methods =>
      list? str? (.arr (d.unreachable.map .str)) >>= fun unreachable =>
        some (⟨classes, methods, unreachable⟩ : Description)) = _
    rw [hclasses, hmethods, hunreachable]
    rfl

theorem fits_iff (d : Description) : (d.fits = true ∧ .var "null" ∉ d.operands) ↔
    ∀ m ∈ d.methods, ∀ i ∈ m.body, i.fits = true ∧ .var "null" ∉ i.operands := by
  simp only [fits, operands, List.all_eq_true, mem_flatMap, not_exists, not_and, ← forall_and]

/-- A description that was read is read again when it is written, whatever value it was read
    from. The descriptions that survive being written and read are those whose numbers fit and
    that have no local called `null` as an operand. -/
theorem ofJson?_toJson_iff :
    (∀ j d, ofJson? j = some d → ofJson? d.toJson = some d) ∧
      ∀ d, ofJson? d.toJson = some d ↔ d.fits = true ∧ .var "null" ∉ d.operands := by
  refine ⟨fun j d h => inverts.read_write (inverts.gives j d h), fun d => ?_⟩
  rw [fits_iff]
  exact ⟨inverts.gives d.toJson d, fun h => inverts.read_write h⟩

/-- A value that leaves out what may be left out, and spells the null constant in both ways. -/
def terse : Json :=
  .obj [("methods", .arr [.obj [("name", .str "Main.main"), ("body", .arr [
    .obj [("op", .str "call"), ("method", .str "Main.queryFor"),
      ("args", .arr [.str "a", .obj [("int", .int (-1))], .str "null", .obj [("null", .null)]])],
    .arr [.str "return"]])]])]

/-- The description with one method that calls another and returns. -/
def calling (args : List (Operand String)) : Description :=
  { methods := [{ name := "Main.main", body := [.call none "Main.queryFor" args, .ret none] }] }

/-- Both spellings are read as the constant, and written as one of them. A local cannot be
    spelled so. -/
theorem ofJson?_toJson_calling :
    ofJson? terse = some (calling [.var "a", .const (.int (-1)), .const .null, .const .null]) ∧
      ofJson? (calling [.var "a", .const (.int (-1)), .const .null, .const .null]).toJson =
        some (calling [.var "a", .const (.int (-1)), .const .null, .const .null]) ∧
      ofJson? (calling [.var "null"]).toJson ≠ some (calling [.var "null"]) :=
  ⟨rfl, ofJson?_toJson_iff.1 terse _ rfl, fun h => ((ofJson?_toJson_iff.2 _).1 h).2 (by decide)⟩

end Description

end DemandAlias
