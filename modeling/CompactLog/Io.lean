import CompactLog.Codec

/-! SlateDB as the tree reaches it: an operation is the tree of requests it sends, run against a
backend (the sequential semantics) or a schedule of stores (the interleaved one). -/

namespace CompactLog

/-- `slatedb::SlateDBError`, kept as its message. -/
structure DbError where
  msg : String
deriving DecidableEq, Repr

/-- `slatedb::WriteBatch`: puts, applied in order and committed together. -/
abbrev WriteBatch := List (Bytes × Bytes)

abbrev Store := Bytes → Option Bytes

def Store.set (s : Store) (key value : Bytes) : Store := Function.update s key (some value)

/-- The store after the puts of `batch`, the last put to a key winning. -/
def Store.apply (s : Store) (batch : WriteBatch) : Store :=
  batch.foldl (fun s kv => s.set kv.1 kv.2) s

/-- An operation as the requests it sends to SlateDB. `panic` is Rust's panic, which ends the
task; the model uses it for arithmetic overflow. -/
inductive Io (α : Type) where
  | pure (a : α)
  | get (key : Bytes) (next : Except DbError (Option Bytes) → Io α)
  | put (key value : Bytes) (next : Except DbError Unit → Io α)
  | write (batch : WriteBatch) (next : Except DbError Unit → Io α)
  | panic (msg : String)

def Io.bind {α β : Type} : Io α → (α → Io β) → Io β
  | .pure a, f => f a
  | .get key next, f => .get key fun r => (next r).bind f
  | .put key value next, f => .put key value fun r => (next r).bind f
  | .write batch next, f => .write batch fun r => (next r).bind f
  | .panic msg, _ => .panic msg

instance : Monad Io where
  pure := .pure
  bind := Io.bind

theorem Io.bind_pure_right {α : Type} (x : Io α) : x.bind Io.pure = x := by
  induction x with
  | pure a => rfl
  | get key next ih => simp only [Io.bind, ih]
  | put key value next ih => simp only [Io.bind, ih]
  | write batch next ih => simp only [Io.bind, ih]
  | panic msg => rfl

theorem Io.bind_assoc {α β γ : Type} (x : Io α) (f : α → Io β) (g : β → Io γ) :
    (x.bind f).bind g = x.bind fun a => (f a).bind g := by
  induction x with
  | pure a => rfl
  | get key next ih => simp only [Io.bind, ih]
  | put key value next ih => simp only [Io.bind, ih]
  | write batch next ih => simp only [Io.bind, ih]
  | panic msg => rfl

instance : LawfulMonad Io :=
  LawfulMonad.mk' Io (fun x => Io.bind_pure_right x) (fun _ _ => rfl) Io.bind_assoc

/-- The backend: the durable map, the reads that fail, and whether writes fail. -/
structure Backend where
  kv : Store
  readFault : Bytes → Option DbError
  writeFault : Option DbError

def Backend.ofStore (kv : Store) : Backend := ⟨kv, fun _ => none, none⟩

def Backend.read (b : Backend) (key : Bytes) : Except DbError (Option Bytes) :=
  match b.readFault key with
  | some e => .error e
  | none => .ok (b.kv key)

/-- The sequential semantics. A batch is committed all or nothing; `none` is a panic. -/
def Io.run {α : Type} : Io α → Backend → Option α × Backend
  | .pure a, b => (some a, b)
  | .get key next, b => (next (b.read key)).run b
  | .put key value next, b =>
    match b.writeFault with
    | some e => (next (.error e)).run b
    | none => (next (.ok ())).run { b with kv := b.kv.set key value }
  | .write batch next, b =>
    match b.writeFault with
    | some e => (next (.error e)).run b
    | none => (next (.ok ())).run { b with kv := b.kv.apply batch }
  | .panic _, b => (none, b)

/-- The interleaved semantics of a read-only operation: its `n`-th read is answered by
`view n`, the store as some committed state of the writer shows it. The run returns the result
and the number of the next read. -/
def Io.runReads {α : Type} (view : Nat → Bytes → Except DbError (Option Bytes)) :
    Nat → Io α → Option (α × Nat)
  | n, .pure a => some (a, n)
  | n, .get key next => runReads view (n + 1) (next (view n key))
  | _, .put .. => none
  | _, .write .. => none
  | _, .panic _ => none

def Io.reads {α : Type} : Io α → Backend → List Bytes
  | .pure _, _ => []
  | .get key next, b => key :: (next (b.read key)).reads b
  | .put key value next, b =>
    match b.writeFault with
    | some e => (next (.error e)).reads b
    | none => (next (.ok ())).reads { b with kv := b.kv.set key value }
  | .write batch next, b =>
    match b.writeFault with
    | some e => (next (.error e)).reads b
    | none => (next (.ok ())).reads { b with kv := b.kv.apply batch }
  | .panic _, _ => []

section Run

variable {α β : Type}

@[simp] theorem Io.run_pure (a : α) (b : Backend) : (pure a : Io α).run b = (some a, b) := rfl

@[simp] theorem Io.run_get (key : Bytes) (next : Except DbError (Option Bytes) → Io α)
    (b : Backend) : (Io.get key next).run b = (next (b.read key)).run b := rfl

@[simp] theorem Io.run_panic (msg : String) (b : Backend) :
    (Io.panic msg : Io α).run b = (none, b) := rfl

theorem Io.run_bind (x : Io α) (f : α → Io β) (b : Backend) :
    (x >>= f).run b =
      match x.run b with
      | (some a, b') => (f a).run b'
      | (none, b') => (none, b') := by
  induction x generalizing b with
  | pure a => rfl
  | get key next ih => exact ih _ b
  | put key value next ih =>
    show ((Io.put key value next).bind f).run b = _
    simp only [Io.bind, Io.run]
    split <;> exact ih _ _
  | write batch next ih =>
    show ((Io.write batch next).bind f).run b = _
    simp only [Io.bind, Io.run]
    split <;> exact ih _ _
  | panic msg => rfl

@[simp] theorem Io.runReads_pure (view : Nat → Bytes → Except DbError (Option Bytes)) (n : Nat)
    (a : α) : (pure a : Io α).runReads view n = some (a, n) := rfl

@[simp] theorem Io.runReads_get (view : Nat → Bytes → Except DbError (Option Bytes)) (n : Nat)
    (key : Bytes) (next : Except DbError (Option Bytes) → Io α) :
    (Io.get key next).runReads view n = (next (view n key)).runReads view (n + 1) := rfl

theorem Io.runReads_bind (view : Nat → Bytes → Except DbError (Option Bytes)) (x : Io α)
    (f : α → Io β) (n : Nat) :
    (x >>= f).runReads view n = (x.runReads view n).bind fun r => (f r.1).runReads view r.2 := by
  induction x generalizing n with
  | pure a => rfl
  | get key next ih => exact ih _ (n + 1)
  | put => rfl
  | write => rfl
  | panic => rfl

theorem Io.reads_bind (x : Io α) (f : α → Io β) (b : Backend) :
    (x >>= f).reads b = x.reads b ++
      match x.run b with
      | (some a, b') => (f a).reads b'
      | (none, _) => [] := by
  induction x generalizing b with
  | pure a => rfl
  | get key next ih => exact congrArg (key :: ·) (ih _ b)
  | put key value next ih =>
    show ((Io.put key value next).bind f).reads b = _
    simp only [Io.bind, Io.reads, Io.run]
    split <;> exact ih _ _
  | write batch next ih =>
    show ((Io.write batch next).bind f).reads b = _
    simp only [Io.bind, Io.reads, Io.run]
    split <;> exact ih _ _
  | panic msg => rfl

end Run

def WriteBatch.lastPut (batch : WriteBatch) (key : Bytes) : Option Bytes :=
  batch.foldl (fun r kv => if kv.1 = key then some kv.2 else r) none

section Apply

variable (s : Store) (key : Bytes)

theorem WriteBatch.lastPut_append_singleton (batch : WriteBatch) (kv : Bytes × Bytes) :
    WriteBatch.lastPut (batch ++ [kv]) key =
      if kv.1 = key then some kv.2 else WriteBatch.lastPut batch key := by
  simp [WriteBatch.lastPut]

theorem Store.apply_eq (batch : WriteBatch) :
    s.apply batch key = (WriteBatch.lastPut batch key).or (s key) := by
  induction batch using List.reverseRecOn with
  | nil => rfl
  | append_singleton batch kv ih =>
    have e : s.apply (batch ++ [kv]) key = if key = kv.1 then some kv.2 else s.apply batch key := by
      simp [Store.apply, Store.set, Function.update_apply]
    rw [e, WriteBatch.lastPut_append_singleton, ih]
    by_cases h : kv.1 = key
    · simp [h]
    · simp [h, Ne.symm h]

theorem WriteBatch.lastPut_eq_none {batch : WriteBatch} (h : ∀ kv ∈ batch, kv.1 ≠ key) :
    WriteBatch.lastPut batch key = none := by
  induction batch using List.reverseRecOn with
  | nil => rfl
  | append_singleton batch kv ih =>
    rw [WriteBatch.lastPut_append_singleton, if_neg (h kv (by simp)),
      ih fun kv' hm => h kv' (by simp [hm])]

theorem WriteBatch.lastPut_eq_some {batch : WriteBatch} {v : Bytes} (hm : (key, v) ∈ batch)
    (h : ∀ kv ∈ batch, kv.1 = key → kv.2 = v) : WriteBatch.lastPut batch key = some v := by
  induction batch using List.reverseRecOn with
  | nil => simp at hm
  | append_singleton batch kv ih =>
    rw [WriteBatch.lastPut_append_singleton]
    split
    · rw [h kv (by simp) ‹_›]
    · rcases List.mem_append.mp hm with hm | hm
      · exact ih hm fun kv' hk => h kv' (by simp [hk])
      · obtain rfl := List.mem_singleton.mp hm
        simp_all

theorem Store.apply_of_forall_ne {batch : WriteBatch} (h : ∀ kv ∈ batch, kv.1 ≠ key) :
    s.apply batch key = s key := by
  rw [Store.apply_eq, WriteBatch.lastPut_eq_none key h, Option.none_or]

theorem Store.apply_of_mem {batch : WriteBatch} {v : Bytes} (hm : (key, v) ∈ batch)
    (h : ∀ kv ∈ batch, kv.1 = key → kv.2 = v) : s.apply batch key = some v := by
  rw [Store.apply_eq, WriteBatch.lastPut_eq_some key hm h]
  rfl

@[simp] theorem Store.apply_nil : s.apply [] = s := rfl

theorem Store.apply_append (w₁ w₂ : WriteBatch) : s.apply (w₁ ++ w₂) = (s.apply w₁).apply w₂ :=
  List.foldl_append _ _ _ _

theorem Store.apply_congr {s₁ s₂ : Store} (batch : WriteBatch) (h : s₁ key = s₂ key) :
    s₁.apply batch key = s₂.apply batch key := by
  rw [Store.apply_eq, Store.apply_eq, h]

end Apply

section Logic

variable {ε α β γ : Type}

/-- Run from `b`, `p` leaves the backend as it is and, if it succeeds, returns a value satisfying
`Q`. -/
def Returns (p : ExceptT ε Io α) (b : Backend) (Q : α → Prop) : Prop :=
  (p.run.run b).2 = b ∧ ∀ a, (p.run.run b).1 = some (.ok a) → Q a

variable {b : Backend} {P Q : α → Prop}

theorem Returns.pure {a : α} (h : Q a) : Returns (pure a : ExceptT ε Io α) b Q :=
  ⟨rfl, fun _ e => by cases e; exact h⟩

theorem Returns.throw (e : ε) : Returns (throw e : ExceptT ε Io α) b Q :=
  ⟨rfl, fun _ h => by cases h⟩

theorem Returns.panic (msg : String) : Returns (ExceptT.lift (Io.panic msg) : ExceptT ε Io α) b Q :=
  ⟨rfl, fun _ h => by cases h⟩

theorem Returns.mono {p : ExceptT ε Io α} (h : Returns p b P) (hPQ : ∀ a, P a → Q a) :
    Returns p b Q :=
  ⟨h.1, fun a ha => hPQ a (h.2 a ha)⟩

theorem Returns.bind {x : ExceptT ε Io α} {f : α → ExceptT ε Io β} {Q : β → Prop}
    (hx : Returns x b P) (hf : ∀ a, P a → Returns (f a) b Q) : Returns (x >>= f) b Q := by
  obtain ⟨hb, hok⟩ := hx
  unfold Returns
  rw [ExceptT.run_bind, Io.run_bind]
  rcases e : x.run.run b with ⟨_ | _ | a, b'⟩
  · simp only [e] at hb; subst hb; exact ⟨rfl, fun _ h => by cases h⟩
  · simp only [e] at hb; subst hb; exact ⟨rfl, fun _ h => by cases h⟩
  · simp only [e] at hb hok; subst hb
    exact hf a (hok a rfl)

theorem Returns.foldlM {f : α → γ → ExceptT ε Io α} (I : List γ → α → Prop) (xs : List γ)
    (step : ∀ pre x rest acc, pre ++ x :: rest = xs → I pre acc → Returns (f acc x) b (I (pre ++ [x])))
    {init : α} (h : I [] init) : Returns (xs.foldlM f init) b (I xs) := by
  suffices ∀ ys pre init, pre ++ ys = xs → I pre init → Returns (ys.foldlM f init) b (I xs) from
    this xs [] init rfl h
  intro ys
  induction ys with
  | nil => intro pre init he h; exact Returns.pure (by simpa [← he] using h)
  | cons y ys ih =>
    intro pre init he h
    rw [List.foldlM_cons]
    exact (step pre y ys init he h).bind fun acc hacc => ih (pre ++ [y]) acc (by simp [← he]) hacc

theorem Returns.run_bind_ok {x : ExceptT ε Io α} {f : α → ExceptT ε Io β} {r : β}
    (hx : Returns x b P) (h : ((x >>= f).run.run b).1 = some (.ok r)) :
    ∃ a, P a ∧ (x >>= f).run.run b = (f a).run.run b := by
  obtain ⟨hb, hok⟩ := hx
  rw [ExceptT.run_bind, Io.run_bind] at h ⊢
  rcases e : x.run.run b with ⟨_ | _ | a, b'⟩
  · simp only [e] at h; cases h
  · simp only [e] at h; cases h
  · simp only [e] at hb hok ⊢; subst hb
    exact ⟨a, hok a rfl, rfl⟩

theorem Returns.run_bind_error {x : ExceptT ε Io α} {f : α → ExceptT ε Io β} {e : ε}
    (hx : Returns x b P) (h : ((x >>= f).run.run b).1 = some (.error e)) :
    (x >>= f).run.run b = (some (.error e), b) ∨ ∃ a, P a ∧ (x >>= f).run.run b = (f a).run.run b := by
  obtain ⟨hb, hok⟩ := hx
  rw [ExceptT.run_bind, Io.run_bind] at h ⊢
  rcases e' : x.run.run b with ⟨_ | _ | a, b'⟩
  · simp only [e'] at h; cases h
  · simp only [e'] at h hb ⊢; subst hb; cases h; exact .inl rfl
  · simp only [e'] at hb hok ⊢; subst hb
    exact .inr ⟨a, hok a rfl, rfl⟩

theorem Returns.mapM {f : γ → ExceptT ε Io α} {g : γ → α} :
    ∀ xs : List γ, (∀ x ∈ xs, Returns (f x) b (· = g x)) → Returns (xs.mapM f) b (· = xs.map g)
  | [], _ => Returns.pure rfl
  | x :: xs, h => by
    rw [List.mapM_cons]
    refine (h x (by simp)).bind fun y hy => (Returns.mapM xs fun x' hx => h x' (by simp [hx])).bind
      fun ys hys => Returns.pure ?_
    simp [hy, hys]

def Yields (p : ExceptT ε Io α) (b : Backend) (a : α) : Prop := p.run.run b = (some (.ok a), b)

theorem Yields.pure (a : α) : Yields (pure a : ExceptT ε Io α) b a := rfl

theorem Yields.bind {x : ExceptT ε Io α} {f : α → ExceptT ε Io β} {a : α} {c : β}
    (hx : Yields x b a) (hf : Yields (f a) b c) : Yields (x >>= f) b c := by
  unfold Yields at *
  rw [ExceptT.run_bind, Io.run_bind, hx]
  exact hf

theorem Yields.mapM {f : γ → ExceptT ε Io α} {g : γ → α} :
    ∀ xs : List γ, (∀ x ∈ xs, Yields (f x) b (g x)) → Yields (xs.mapM f) b (xs.map g)
  | [], _ => rfl
  | x :: xs, h => by
    rw [List.mapM_cons]
    exact (h x (by simp)).bind ((Yields.mapM xs fun x' hx => h x' (by simp [hx])).bind (Yields.pure _))

theorem Yields.returns {p : ExceptT ε Io α} {a : α} (h : Yields p b a) : Returns p b (· = a) :=
  ⟨by rw [h], fun a' h' => by rw [h] at h'; cases h'; rfl⟩

theorem Yields.foldlM {f : α → γ → ExceptT ε Io α} :
    ∀ xs : List γ, (∀ acc, ∀ x ∈ xs, ∃ acc', Yields (f acc x) b acc') →
      ∀ init, ∃ r, Yields (xs.foldlM f init) b r
  | [], _, init => ⟨init, rfl⟩
  | x :: xs, h, init => by
    obtain ⟨acc, hx⟩ := h init x (List.mem_cons_self _ _)
    obtain ⟨r, hr⟩ := Yields.foldlM xs (fun acc y hy => h acc y (List.mem_cons_of_mem _ hy)) acc
    exact ⟨r, by rw [List.foldlM_cons]; exact hx.bind hr⟩

theorem Yields.bind_exists {x : ExceptT ε Io α} {f : α → ExceptT ε Io β} {a : α}
    (hx : Yields x b a) (hf : ∃ c, Yields (f a) b c) : ∃ c, Yields (x >>= f) b c :=
  let ⟨c, h⟩ := hf
  ⟨c, hx.bind h⟩

/-- Run from `b`, `p` returns a value satisfying `Q`: it neither fails nor panics. With `Returns`,
total correctness. -/
def Succeeds (p : ExceptT ε Io α) (b : Backend) (Q : α → Prop) : Prop :=
  ∃ a, Q a ∧ (p.run.run b).1 = some (.ok a)

theorem Yields.succeeds {p : ExceptT ε Io α} {a : α} (h : Yields p b a) : Succeeds p b (· = a) :=
  ⟨a, rfl, by rw [h]⟩

theorem Succeeds.mono {p : ExceptT ε Io α} {R : α → Prop} (h : Succeeds p b R) (hRQ : ∀ a, R a → Q a) :
    Succeeds p b Q :=
  let ⟨a, hR, ha⟩ := h
  ⟨a, hRQ a hR, ha⟩

theorem Returns.yields {p : ExceptT ε Io α} {R : α → Prop} (h : Returns p b Q) (hs : Succeeds p b R) :
    ∃ a, Q a ∧ R a ∧ Yields p b a :=
  let ⟨a, hR, ha⟩ := hs
  ⟨a, h.2 a ha, hR, Prod.ext ha h.1⟩

theorem Succeeds.bind {x : ExceptT ε Io α} {f : α → ExceptT ε Io β} {R : α → Prop} {Q : β → Prop}
    (hs : Succeeds x b R) (hx : Returns x b P) (hf : ∀ a, P a → R a → Succeeds (f a) b Q) :
    Succeeds (x >>= f) b Q := by
  obtain ⟨a, hP, hR, ha⟩ := hx.yields hs
  obtain ⟨c, hQ, hc⟩ := hf a hP hR
  exact ⟨c, hQ, by rw [ExceptT.run_bind, Io.run_bind, ha]; exact hc⟩

theorem Yields.bind_succeeds {x : ExceptT ε Io α} {f : α → ExceptT ε Io β} {a : α} {Q : β → Prop}
    (hx : Yields x b a) (hf : Succeeds (f a) b Q) : Succeeds (x >>= f) b Q :=
  hx.succeeds.bind hx.returns fun _ h _ => h ▸ hf

theorem Succeeds.bind_pure {x : ExceptT ε Io α} {R : α → Prop} (g : α → β) (hs : Succeeds x b R) :
    Succeeds (x >>= fun a => pure (g a)) b fun c => ∃ a, R a ∧ c = g a := by
  obtain ⟨a, hR, ha⟩ := hs
  refine ⟨g a, ⟨a, hR, rfl⟩, ?_⟩
  rw [ExceptT.run_bind, Io.run_bind]
  rcases e : x.run.run b with ⟨r, b'⟩
  rw [e] at ha
  subst ha
  rfl

theorem Succeeds.foldlM {f : α → γ → ExceptT ε Io α} (I : List γ → α → Prop) (xs : List γ)
    (step : ∀ pre x rest acc, pre ++ x :: rest = xs → I pre acc →
      Succeeds (f acc x) b (fun _ => True) ∧ Returns (f acc x) b (I (pre ++ [x])))
    {init : α} (h : I [] init) : Succeeds (xs.foldlM f init) b (I xs) := by
  suffices ∀ ys pre init, pre ++ ys = xs → I pre init → Succeeds (ys.foldlM f init) b (I xs) from
    this xs [] init rfl h
  intro ys
  induction ys with
  | nil => intro pre init he h; exact ⟨init, by simpa [← he] using h, rfl⟩
  | cons y ys ih =>
    intro pre init he h
    rw [List.foldlM_cons]
    obtain ⟨hs, hr⟩ := step pre y ys init he h
    exact hs.bind hr fun acc hacc _ => ih (pre ++ [y]) acc (by simp [← he]) hacc

/-- Run from `b`, `p` leaves the backend as it is and fails with `e`. -/
def Throws (p : ExceptT ε Io α) (b : Backend) (e : ε) : Prop := p.run.run b = (some (.error e), b)

theorem Throws.throw (e : ε) : Throws (throw e : ExceptT ε Io α) b e := rfl

theorem Throws.bind {x : ExceptT ε Io α} {f : α → ExceptT ε Io β} {e : ε} (h : Throws x b e) :
    Throws (x >>= f) b e := by
  unfold Throws at *
  rw [ExceptT.run_bind, Io.run_bind, h]
  rfl

theorem Yields.bind_throws {x : ExceptT ε Io α} {f : α → ExceptT ε Io β} {a : α} {e : ε}
    (hx : Yields x b a) (hf : Throws (f a) b e) : Throws (x >>= f) b e := by
  unfold Throws Yields at *
  rw [ExceptT.run_bind, Io.run_bind, hx]
  exact hf

def Panics (p : ExceptT ε Io α) (b : Backend) : Prop := (p.run.run b).1 = none

theorem Panics.bind {x : ExceptT ε Io α} {f : α → ExceptT ε Io β} (h : Panics x b) :
    Panics (x >>= f) b := by
  unfold Panics at *
  rw [ExceptT.run_bind, Io.run_bind]
  rcases e : x.run.run b with ⟨_ | _, b'⟩
  · rfl
  · rw [e] at h; cases h

theorem Yields.bind_panics {x : ExceptT ε Io α} {f : α → ExceptT ε Io β} {a : α}
    (hx : Yields x b a) (hf : Panics (f a) b) : Panics (x >>= f) b := by
  unfold Panics Yields at *
  rw [ExceptT.run_bind, Io.run_bind, hx]
  exact hf

theorem Panics.foldlM {f : α → γ → ExceptT ε Io α} {xs ys : List γ} {y : γ} {init : α}
    (hpre : ∀ acc, ∀ x ∈ xs, ∃ acc', Yields (f acc x) b acc') (hy : ∀ acc, Panics (f acc y) b) :
    Panics ((xs ++ y :: ys).foldlM f init) b := by
  obtain ⟨acc, h⟩ := Yields.foldlM xs hpre init
  rw [List.foldlM_append]
  exact h.bind_panics (by rw [List.foldlM_cons]; exact (hy acc).bind)

theorem reads_bind (x : ExceptT ε Io α) (f : α → ExceptT ε Io β) (b : Backend) :
    (x >>= f).run.reads b = x.run.reads b ++
      match x.run.run b with
      | (some (.ok a), b') => (f a).run.reads b'
      | _ => [] := by
  rw [ExceptT.run_bind, Io.reads_bind]
  congr 1
  rcases x.run.run b with ⟨_ | _ | a, b'⟩ <;> rfl

theorem Yields.reads_bind {x : ExceptT ε Io α} {f : α → ExceptT ε Io β} {a : α} (hx : Yields x b a) :
    (x >>= f).run.reads b = x.run.reads b ++ (f a).run.reads b := by
  rw [CompactLog.reads_bind, hx]

@[simp] theorem reads_pure (a : α) : (pure a : ExceptT ε Io α).run.reads b = [] := rfl

theorem reads_bind_of_right {x : ExceptT ε Io α} {f : α → ExceptT ε Io β}
    (hf : ∀ a b', (f a).run.reads b' = []) : (x >>= f).run.reads b = x.run.reads b := by
  rw [CompactLog.reads_bind]
  split
  · rw [hf, List.append_nil]
  · rw [List.append_nil]

/-- Run from `b`, `p` sends no read, leaves the backend as it is and, if it succeeds, returns a
value satisfying `Q`. -/
def Quiet (p : ExceptT ε Io α) (b : Backend) (Q : α → Prop) : Prop :=
  Returns p b Q ∧ p.run.reads b = []

theorem Quiet.pure {a : α} (h : Q a) : Quiet (pure a : ExceptT ε Io α) b Q := ⟨Returns.pure h, rfl⟩

theorem Quiet.throw (e : ε) : Quiet (throw e : ExceptT ε Io α) b Q := ⟨Returns.throw e, rfl⟩

theorem Quiet.panic (msg : String) : Quiet (ExceptT.lift (Io.panic msg) : ExceptT ε Io α) b Q :=
  ⟨Returns.panic msg, rfl⟩

theorem Quiet.mono {p : ExceptT ε Io α} (h : Quiet p b P) (hPQ : ∀ a, P a → Q a) : Quiet p b Q :=
  ⟨h.1.mono hPQ, h.2⟩

theorem Quiet.bind {x : ExceptT ε Io α} {f : α → ExceptT ε Io β} {Q : β → Prop}
    (hx : Quiet x b P) (hf : ∀ a, P a → Quiet (f a) b Q) : Quiet (x >>= f) b Q := by
  refine ⟨hx.1.bind fun a ha => (hf a ha).1, ?_⟩
  rw [CompactLog.reads_bind, hx.2, List.nil_append]
  have hb := hx.1.1
  rcases e : x.run.run b with ⟨_ | _ | a, b'⟩
  · rfl
  · rfl
  · rw [e] at hb
    subst hb
    exact (hf a (hx.1.2 a (by rw [e]))).2

theorem Quiet.foldlM {f : α → γ → ExceptT ε Io α} (I : List γ → α → Prop) (xs : List γ)
    (step : ∀ pre x rest acc, pre ++ x :: rest = xs → I pre acc → Quiet (f acc x) b (I (pre ++ [x])))
    {init : α} (h : I [] init) : Quiet (xs.foldlM f init) b (I xs) := by
  suffices ∀ ys pre init, pre ++ ys = xs → I pre init → Quiet (ys.foldlM f init) b (I xs) from
    this xs [] init rfl h
  intro ys
  induction ys with
  | nil => intro pre init he h; exact Quiet.pure (by simpa [← he] using h)
  | cons y ys ih =>
    intro pre init he h
    rw [List.foldlM_cons]
    exact (step pre y ys init he h).bind fun acc hacc => ih (pre ++ [y]) acc (by simp [← he]) hacc

/-- Its reads answered by `view` from the `n`-th on, `p` succeeds only with a value `a`, the next
read being the `n'`-th, such that `Q a n'`. -/
def ReadsTo (p : ExceptT ε Io α) (view : Nat → Bytes → Except DbError (Option Bytes)) (n : Nat)
    (Q : α → Nat → Prop) : Prop :=
  ∀ a n', p.run.runReads view n = some (.ok a, n') → Q a n'

variable {view : Nat → Bytes → Except DbError (Option Bytes)} {n : Nat} {R S : α → Nat → Prop}

theorem ReadsTo.pure {a : α} (h : R a n) : ReadsTo (pure a : ExceptT ε Io α) view n R :=
  fun _ _ e => by cases e; exact h

theorem ReadsTo.throw (e : ε) : ReadsTo (throw e : ExceptT ε Io α) view n R :=
  fun _ _ h => by cases h

theorem ReadsTo.mono {p : ExceptT ε Io α} (h : ReadsTo p view n R) (hRS : ∀ a n', R a n' → S a n') :
    ReadsTo p view n S :=
  fun a n' e => hRS a n' (h a n' e)

theorem ReadsTo.bind {x : ExceptT ε Io α} {f : α → ExceptT ε Io β} {Q : β → Nat → Prop}
    (hx : ReadsTo x view n R) (hf : ∀ a n', R a n' → ReadsTo (f a) view n' Q) :
    ReadsTo (x >>= f) view n Q := by
  intro c n' h
  rw [ExceptT.run_bind, Io.runReads_bind] at h
  rcases e : x.run.runReads view n with _ | ⟨_ | a, n₁⟩ <;> rw [e] at h
  · cases h
  · cases h
  · exact hf a n₁ (hx a n₁ e) c n' h

theorem ReadsTo.mapM {f : γ → ExceptT ε Io α} {g : γ → α} (I : Nat → Prop) :
    ∀ xs : List γ, (∀ x ∈ xs, ∀ m, I m → ReadsTo (f x) view m fun y m' => y = g x ∧ I m') →
      ∀ m, I m → ReadsTo (xs.mapM f) view m fun ys m' => ys = xs.map g ∧ I m'
  | [], _, _, hI => ReadsTo.pure ⟨rfl, hI⟩
  | x :: xs, h, m, hI => by
    rw [List.mapM_cons]
    exact (h x (by simp) m hI).bind fun y m₁ ⟨hy, hI₁⟩ =>
      (ReadsTo.mapM I xs (fun x' hx => h x' (by simp [hx])) m₁ hI₁).bind fun ys m₂ ⟨hys, hI₂⟩ =>
        ReadsTo.pure ⟨by simp [hy, hys], hI₂⟩

/-- Its reads answered by `view` from the `n`-th on, `p` returns `a`, the next read being the
`n'`-th. -/
def ReadsYield (p : ExceptT ε Io α) (view : Nat → Bytes → Except DbError (Option Bytes)) (n : Nat)
    (a : α) (n' : Nat) : Prop :=
  p.run.runReads view n = some (.ok a, n')

theorem ReadsYield.pure (a : α) : ReadsYield (pure a : ExceptT ε Io α) view n a n := rfl

theorem ReadsYield.bind {x : ExceptT ε Io α} {f : α → ExceptT ε Io β} {a : α} {c : β} {n₁ n₂ : Nat}
    (hx : ReadsYield x view n a n₁) (hf : ReadsYield (f a) view n₁ c n₂) :
    ReadsYield (x >>= f) view n c n₂ := by
  unfold ReadsYield at *
  rw [ExceptT.run_bind, Io.runReads_bind, hx]
  exact hf

theorem ReadsYield.mapM {f : γ → ExceptT ε Io α} {g : γ → α} (I : Nat → Prop) :
    ∀ xs : List γ, (∀ x ∈ xs, ∀ m, I m → ∃ m', I m' ∧ ReadsYield (f x) view m (g x) m') →
      ∀ m, I m → ∃ m', I m' ∧ ReadsYield (xs.mapM f) view m (xs.map g) m'
  | [], _, m, hI => ⟨m, hI, rfl⟩
  | x :: xs, h, m, hI => by
    obtain ⟨m₁, hI₁, hx⟩ := h x (by simp) m hI
    obtain ⟨m₂, hI₂, hxs⟩ := ReadsYield.mapM I xs (fun x' hx => h x' (by simp [hx])) m₁ hI₁
    exact ⟨m₂, hI₂, by rw [List.mapM_cons]; exact hx.bind (hxs.bind (ReadsYield.pure _))⟩

theorem ReadsYield.readsTo {p : ExceptT ε Io α} {a : α} {n' : Nat} (h : ReadsYield p view n a n')
    (hQ : ReadsTo p view n R) : R a n' :=
  hQ a n' h

end Logic

end CompactLog
