import BlockIR.Proofs.Ends
import BlockIR.Target

/-! What the builtins of the targets leave alone.

A builtin can write memory, storage and the trace. It counts no step and raises
no signal, and, called with as many arguments as its arity says, it fails only
because it cannot act on their values. `Tame` states this for an action and is
kept by sequencing, so that each builtin is covered by the shape of its body. -/
namespace BlockIR

/-- An action that neither counts nor signals. If `called` holds, it fails only with domain errors. -/
structure Action.Tame {α : Type} (called : Prop) (x : Action α) : Prop where
  steps : ∀ m, (x m).2.steps = m.steps
  signal : ∀ m, (x m).2.signal = m.signal
  failure : called → ∀ m e, (x m).1 = .error e → ∃ fault, e = .domain fault

namespace Action
variable {α β : Type} {called : Prop}

theorem tame_pure (a : α) : Tame called (pure a : Action α) where
  steps _ := rfl
  signal _ := rfl
  failure _ _ _ h := nomatch h

theorem Tame.bind {x : Action α} {f : α → Action β} (hx : Tame called x)
    (hf : ∀ a, Tame called (f a)) : Tame called (x >>= f) where
  steps m := by
    have h := hx.steps m
    rw [Effect.bind_apply]
    rcases hm : x m with ⟨_ | a, m'⟩ <;> rw [hm] at h
    · exact h
    · exact ((hf a).steps m').trans h
  signal m := by
    have h := hx.signal m
    rw [Effect.bind_apply]
    rcases hm : x m with ⟨_ | a, m'⟩ <;> rw [hm] at h
    · exact h
    · exact ((hf a).signal m').trans h
  failure hc m e he := by
    rw [Effect.bind_apply] at he
    rcases hm : x m with ⟨_ | a, m'⟩ <;> rw [hm] at he
    · exact hx.failure hc m e (by rw [hm]; exact congrArg _ (Except.error.inj he))
    · exact (hf a).failure hc m' e he

theorem tame_when {condition : Bool} {x : Action Unit} (h : Tame called x) :
    Tame called (Effect.when condition x) := by
  unfold Effect.when
  split
  · exact h
  · exact tame_pure ()

theorem tame_gets (f : Machine → α) : Tame called (Effect.gets f : Action α) where
  steps _ := rfl
  signal _ := rfl
  failure _ _ _ h := nomatch h

theorem tame_modify {f : Machine → Machine} (hsteps : ∀ m, (f m).steps = m.steps)
    (hsignal : ∀ m, (f m).signal = m.signal) : Tame called (Effect.modify f : Action Unit) where
  steps := hsteps
  signal := hsignal
  failure _ _ _ h := nomatch h

theorem tame_domain (fault : DomainFault) : Tame called (Effect.fail (.domain fault) : Action α) where
  steps _ := rfl
  signal _ := rfl
  failure _ _ _ h := ⟨fault, (Except.error.inj h).symm⟩

/-- An argument is there if the call has as many as the arity says. -/
theorem tame_arg {call : Call} {position : Nat} (h : called → position < call.args.length) :
    Tame called (call.arg position) := by
  unfold Call.arg
  rcases hp : call.args[position]? with _ | value
  · refine ⟨fun _ => rfl, fun _ => rfl, fun hc => ?_⟩
    exact absurd (List.getElem?_eq_none_iff.mp hp) (Nat.not_le.mpr (h hc))
  · exact tame_pure value

theorem tame_logCall (name : String) (args : List Word) : Tame called (logCall name args) :=
  tame_modify (fun _ => rfl) fun _ => rfl

theorem tame_readMemory (order : ByteOrder) (offset : Nat) (size : Int) :
    Tame called (readMemory order offset size) where
  steps _ := rfl
  signal _ := rfl
  failure _ _ _ h := nomatch h

theorem tame_writeMemory (order : ByteOrder) (offset : Nat) (size value : Int) :
    Tame called (writeMemory order offset size value) :=
  tame_modify (fun _ => rfl) fun _ => rfl

theorem tame_store (key value : Word) :
    Tame called (Effect.modify (Machine.store · key value) : Action Unit) :=
  tame_modify (fun _ => rfl) fun _ => rfl

theorem tame_writeByte (offset : Nat) (value : Int) : Tame called (writeByte offset value) :=
  tame_modify (fun _ => rfl) fun _ => rfl

end Action

open BlockIR.Action

/-- A builtin whose body is tame when it is called with as many arguments as its arity says. -/
def Builtin.Tame (builtin : Builtin) : Prop :=
  ∀ setting call, Action.Tame (builtin.arity = .exactly call.args.length) (builtin.body setting call)

/-- A builtin whose body sees only such arguments as written that have to be literals. -/
def Builtin.SeesLiterals (builtin : Builtin) : Prop :=
  ∀ setting values raw raw',
    (∀ position : Nat, builtin.wantsLiteral position = true → raw'[position]? = raw[position]?) →
      builtin.body setting ⟨values, raw'⟩ = builtin.body setting ⟨values, raw⟩

theorem lt_args {count position : Nat} {call : Call} (h : position < count)
    (hcount : Arity.exactly count = .exactly call.args.length) : position < call.args.length :=
  Arity.exactly.inj hcount ▸ h

/-! ### Dialects -/

namespace Dialect
variable {name : String} {builtins : List Builtin} {dialect : Dialect} {b : Builtin}

theorem find?_of_firstDuplicate {seen : List String} (h : firstDuplicate seen builtins = none) :
    ∀ b ∈ builtins, b.name ∉ seen ∧ builtins.find? (fun other => other.name = b.name) = some b := by
  induction builtins generalizing seen with
  | nil => exact nofun
  | cons first rest ih =>
    rw [firstDuplicate] at h
    split at h
    · cases h
    · rename_i hnew
      intro b hb
      rcases List.mem_cons.mp hb with rfl | hb
      · exact ⟨hnew, List.find?_cons_of_pos (by simp)⟩
      · obtain ⟨hout, hfind⟩ := ih h b hb
        obtain ⟨hne, hout⟩ := List.ne_and_not_mem_of_not_mem_cons hout
        refine ⟨hout, ?_⟩
        rw [List.find?_cons_of_neg (by simpa using Ne.symm hne), hfind]

/-- A dialect finds each of the builtins that it is made of. -/
theorem find?_of_ofBuiltins (h : ofBuiltins name builtins = .ok dialect) (hmem : b ∈ builtins) :
    dialect.find? b.name = some b := by
  unfold ofBuiltins at h
  split at h
  · cases h
  · rename_i hdistinct
    cases h
    exact (find?_of_firstDuplicate hdistinct b hmem).2

theorem name_of_ofBuiltins (h : ofBuiltins name builtins = .ok dialect) : dialect.name = name := by
  unfold ofBuiltins at h
  split at h <;> cases h
  rfl

/-- A dialect owns what it finds, if that says that it belongs to it. -/
theorem owns_of_find? (hdialect : b.dialect = dialect.name) (hfind : dialect.find? b.name = some b) :
    dialect.owns b = true := by
  unfold owns
  rw [hfind, hdialect]
  simp [Builtin.same]

end Dialect

namespace Target

/-! ### The tables -/

/-- What holds of each kind of builtin of the `evm` dialect holds of them all. -/
theorem Evm.forall_builtins {P : Builtin → Prop} (hunary : ∀ name f, P (unary name f))
    (hbinary : ∀ name f, P (binary name f)) (hmodular : ∀ name f, P (modular name f))
    (hmemory : ∀ b ∈ memory, P b) (hstorage : ∀ b ∈ storage, P b) (henvironment : ∀ b ∈ environment, P b)
    (hdata : ∀ name f, P (dataQuery name f)) : ∀ b ∈ builtins, P b := by
  simp only [builtins, List.forall_mem_append]
  refine ⟨⟨⟨⟨⟨⟨?_, ?_⟩, ?_⟩, hmemory⟩, hstorage⟩, henvironment⟩, ?_⟩
  · simp [arithmetic, hbinary, hmodular]
  · simp [comparison, hbinary, hunary]
  · simp [bitwise, hbinary, hunary]
  · simp [data, hdata]

/-- What holds of each kind of builtin of the `wasm` dialect holds of them all. -/
theorem Wasm.forall_builtins {P : Builtin → Prop} (hunary : ∀ name width f, P (unary name width f))
    (hbinary : ∀ name width f, P (binary name width f)) (hdrop : P (builtin "drop" 1 false fun _ => pure 0))
    (hmemory : ∀ b ∈ memory, P b) : ∀ b ∈ builtins, P b := by
  simp only [builtins, List.forall_mem_append]
  refine ⟨?_, hmemory⟩
  simp [integer, hbinary, hunary, hdrop]

/-- What holds of all builtins of both dialects holds of one that a target finds. -/
theorem holds_of_find? {P : Builtin → Prop} (hevm : ∀ b ∈ Evm.builtins, P b)
    (hwasm : ∀ b ∈ Wasm.builtins, P b) (target : Target) {name : String} {builtin : Builtin}
    (hfind : target.dialect.find? name = some builtin) : P builtin := by
  have hmem := List.mem_of_find?_eq_some hfind
  cases target
  · exact hevm builtin hmem
  · exact hwasm builtin hmem

/-! ### The `evm` dialect -/

namespace Evm

theorem unary_tame (name : String) (f : Word → Int) : (unary name f).Tame := fun _ _ =>
  (tame_arg (lt_args (by decide))).bind fun _ => tame_pure _

theorem binary_tame (name : String) (f : Word → Word → Int) : (binary name f).Tame := fun _ _ =>
  (tame_arg (lt_args (by decide))).bind fun _ => (tame_arg (lt_args (by decide))).bind fun _ => tame_pure _

theorem modular_tame (name : String) (f : Word → Word → Word → Word) : (modular name f).Tame :=
  fun _ _ =>
    (tame_arg (lt_args (by decide))).bind fun _ => (tame_arg (lt_args (by decide))).bind fun _ =>
      (tame_arg (lt_args (by decide))).bind fun _ => tame_pure _

theorem constant_tame (name : String) (f : Setting → Word) : (constant name f).Tame :=
  fun _ _ => tame_pure _

theorem logger_tame (name title : String) (topics : Nat) : (logger name title topics).Tame :=
  fun _ _ => (tame_logCall _ _).bind fun _ => tame_pure _

theorem dataObject_tame {called : Prop} (title : String) (setting : Setting) (call : Call) :
    Action.Tame called (dataObject title setting call) := by
  unfold dataObject
  split
  · split
    · exact tame_pure _
    · exact tame_domain _
  · exact tame_domain _

theorem dataQuery_tame (name : String) (f : Nat × Nat → Word) : (dataQuery name f).Tame :=
  fun _ _ => (dataObject_tame _ _ _).bind fun _ => tame_pure _

theorem memory_tame : ∀ b ∈ memory, b.Tame := by
  simp only [memory, List.forall_mem_cons]
  refine ⟨fun _ _ => ?_, fun _ _ => ?_, fun _ _ => ?_, fun _ _ => tame_gets _, nofun⟩
  · refine (tame_arg (lt_args (by decide))).bind fun offset => ?_
    split
    · exact tame_readMemory _ _ _
    · exact tame_pure 0
  · refine (tame_arg (lt_args (by decide))).bind fun _ => (tame_logCall _ _).bind fun _ =>
      (tame_when ?_).bind fun _ => tame_pure 0
    exact (tame_arg (lt_args (by decide))).bind fun _ => tame_writeMemory _ _ _ _
  · refine (tame_arg (lt_args (by decide))).bind fun _ => (tame_logCall _ _).bind fun _ =>
      (tame_when ?_).bind fun _ => tame_pure 0
    exact (tame_arg (lt_args (by decide))).bind fun _ => tame_writeByte _ _

theorem storage_tame : ∀ b ∈ storage, b.Tame := by
  simp only [storage, List.forall_mem_cons]
  refine ⟨fun _ _ => ?_, fun _ _ => ?_, nofun⟩
  · exact (tame_arg (lt_args (by decide))).bind fun _ => tame_gets _
  · exact (tame_logCall _ _).bind fun _ => (tame_arg (lt_args (by decide))).bind fun _ =>
      (tame_arg (lt_args (by decide))).bind fun _ => (tame_store _ _).bind fun _ => tame_pure 0

theorem environment_tame : ∀ b ∈ environment, b.Tame := by
  simp only [environment, List.forall_mem_cons]
  refine ⟨fun _ _ => ?_, constant_tame _ _, constant_tame _ _, constant_tame _ _, constant_tame _ _,
    fun _ _ => tame_pure 0, logger_tame _ _ _, logger_tame _ _ _, logger_tame _ _ _, nofun⟩
  exact (tame_arg (lt_args (by decide))).bind fun _ => tame_pure _

theorem builtins_tame : ∀ b ∈ builtins, b.Tame :=
  forall_builtins unary_tame binary_tame modular_tame memory_tame storage_tame environment_tame dataQuery_tame

end Evm

/-! ### The `wasm` dialect -/

namespace Wasm

theorem unary_tame (name : String) (width : Nat) (f : Nat → Int) : (unary name width f).Tame :=
  fun _ _ => (tame_arg (lt_args (by decide))).bind fun _ => tame_pure _

theorem binary_tame (name : String) (width : Nat) (f : Nat → Nat → Int) :
    (binary name width f).Tame := fun _ _ =>
  (tame_arg (lt_args (by decide))).bind fun _ => (tame_arg (lt_args (by decide))).bind fun _ => tame_pure _

theorem drop_tame : (builtin "drop" 1 false fun _ => pure 0).Tame := fun _ _ => tame_pure 0

theorem load_tame (name : String) (size : Nat) : (load name size).Tame := fun _ _ => by
  refine (tame_arg (lt_args (by decide))).bind fun address => ?_
  split
  · exact tame_readMemory _ _ _
  · exact tame_pure 0

theorem store_tame (name : String) (size : Nat) : (store name size).Tame := fun _ _ =>
  (tame_arg (lt_args (by decide))).bind fun _ => (tame_arg (lt_args (by decide))).bind fun _ =>
    (tame_logCall _ _).bind fun _ => (tame_when (tame_writeMemory _ _ _ _)).bind fun _ => tame_pure 0

theorem builtins_tame : ∀ b ∈ builtins, b.Tame := by
  apply forall_builtins unary_tame binary_tame drop_tame
  simp [memory, load_tame, store_tame]

end Wasm

/-- The builtins of a target say that they belong to it. -/
theorem builtins_dialect (target : Target) :
    ∀ b ∈ target.dialect.builtins, b.dialect = target.dialect.name := by
  cases target <;> decide

/-- A target's dialect owns the builtins that it finds. -/
theorem owns_of_find? (target : Target) {name : String} {builtin : Builtin}
    (hfind : target.dialect.find? name = some builtin) : target.dialect.owns builtin = true := by
  have hmem := List.mem_of_find?_eq_some hfind
  have hname : builtin.name = name := by
    have hsame := List.find?_some hfind
    simpa using hsame
  exact Dialect.owns_of_find? (builtins_dialect target builtin hmem) (hname ▸ hfind)

/-- The names of a target's builtins differ. -/
theorem ofBuiltins_dialect (target : Target) :
    Dialect.ofBuiltins target.dialect.name target.dialect.builtins = .ok target.dialect := by
  cases target <;> rfl

/-- A target's dialect finds each of its builtins. -/
theorem find?_of_mem (target : Target) {b : Builtin} (hmem : b ∈ target.dialect.builtins) :
    target.dialect.find? b.name = some b :=
  Dialect.find?_of_ofBuiltins target.ofBuiltins_dialect hmem

/-- A call that a target's dialect evaluates with the right number of arguments fails only with a
domain error, and neither counts a step nor raises a signal. -/
theorem evaluate_tame (target : Target) {name : String} {builtin : Builtin}
    (hfind : target.dialect.find? name = some builtin) (setting : Setting) (call : Call) :
    Action.Tame (builtin.arity = .exactly call.args.length)
      (target.dialect.evaluate setting builtin call) := by
  unfold Dialect.evaluate
  rw [if_pos (owns_of_find? target hfind)]
  split
  · exact holds_of_find? Evm.builtins_tame Wasm.builtins_tame target hfind setting call
  · exact ⟨fun _ => rfl, fun _ => rfl, fun hc => absurd hc ‹_›⟩

/-- A call fails because the builtin cannot act on its arguments or gets another number of them. -/
theorem evaluate_failure (target : Target) {name : String} {builtin : Builtin}
    (hfind : target.dialect.find? name = some builtin) {setting : Setting} {call : Call} {m m' : Machine}
    {error : Error} (h : target.dialect.evaluate setting builtin call m = (.error error, m')) :
    (∃ fault, error = .domain fault) ∨
      builtin.arity ≠ .exactly call.args.length ∧
        ∃ expected got what, error = .arityMismatch expected got what := by
  by_cases hcount : builtin.arity = .exactly call.args.length
  · exact .inl ((evaluate_tame target hfind setting call).failure hcount m error (by rw [h]))
  · right
    unfold Dialect.evaluate at h
    rw [if_pos (owns_of_find? target hfind), if_neg hcount] at h
    cases h
    exact ⟨hcount, _, _, _, rfl⟩

/-! ### Arguments as they are written -/

theorem Evm.dataQuery_seesLiterals (name : String) (f : Nat × Nat → Word) : (dataQuery name f).SeesLiterals := by
  intro setting values raw raw' h
  have hobject : dataObject name setting ⟨values, raw'⟩ = dataObject name setting ⟨values, raw⟩ := by
    have hfirst : raw'[0]? = raw[0]? := h 0 rfl
    rcases raw with _ | ⟨first, rest⟩ <;> rcases raw' with _ | ⟨first', rest'⟩ <;> cases hfirst
    · rfl
    · rcases first with (⟨_ | _ | _, text⟩ | _ | _) | _ <;> rfl
  exact congrArg (· >>= fun place => pure (f place)) hobject

theorem Evm.builtins_seesLiterals : ∀ b ∈ builtins, b.SeesLiterals := by
  refine forall_builtins (fun _ _ _ _ _ _ _ => rfl) (fun _ _ _ _ _ _ _ => rfl) (fun _ _ _ _ _ _ _ => rfl) ?_ ?_ ?_
    dataQuery_seesLiterals
  · simp only [memory, List.forall_mem_cons]
    and_intros
    all_goals first | exact fun _ _ _ _ _ => rfl | exact List.forall_mem_nil _
  · simp only [storage, List.forall_mem_cons]
    and_intros
    all_goals first | exact fun _ _ _ _ _ => rfl | exact List.forall_mem_nil _
  · simp only [environment, List.forall_mem_cons]
    and_intros
    all_goals first | exact fun _ _ _ _ _ => rfl | exact List.forall_mem_nil _

theorem Wasm.builtins_seesLiterals : ∀ b ∈ builtins, b.SeesLiterals := by
  refine forall_builtins (fun _ _ _ _ _ _ _ _ => rfl) (fun _ _ _ _ _ _ _ _ => rfl) (fun _ _ _ _ _ => rfl) ?_
  simp only [memory, List.forall_mem_cons]
  and_intros
  all_goals first | exact fun _ _ _ _ _ => rfl | exact List.forall_mem_nil _

/-- A call evaluates to the same, however its arguments are written that need not be literals. -/
theorem evaluate_seesLiterals (target : Target) {name : String} {builtin : Builtin}
    (hfind : target.dialect.find? name = some builtin) (setting : Setting) {values : List Word}
    {raw raw' : List Argument} (h : ∀ position : Nat, builtin.wantsLiteral position = true → raw'[position]? = raw[position]?) :
    target.dialect.evaluate setting builtin ⟨values, raw'⟩ = target.dialect.evaluate setting builtin ⟨values, raw⟩ := by
  have hsees := holds_of_find? Evm.builtins_seesLiterals Wasm.builtins_seesLiterals target hfind
  unfold Dialect.evaluate
  rw [hsees setting values raw raw' h]

end Target
end BlockIR
