import Hamster.Meta.Rollback

/-!
# Evaluating an apply body on a store

`Tx.eval` runs a body from a fresh transaction and keeps what matters
outside: the result and the keyspace.  For a regular body the undo log is
irrelevant, so a mutation is a plain store update (`eval_set_bind`,
`eval_delete_bind`) and a body is evaluated by rewriting.  `applyMem_eq` is
the link to `Store.Apply`.
-/

namespace Hamster.Meta

open CodeLib

namespace Tx

variable {α β : Type} (s : Store)

/-- The result of a body and the keyspace it leaves. -/
def eval (m : Tx α) (s : Store) : Except MetaError α × Store :=
  ((m.run (TxKV.start s)).1, (m.run (TxKV.start s)).2.memKV)

theorem eval_eq_run (m : Tx α) [hm : m.Regular] {t : TxKV} (h : t.memKV = s) :
    ((m.run t).1, (m.run t).2.memKV) = m.eval s := by
  obtain ⟨hres, hmem⟩ := hm.blind t (TxKV.start s) h
  rw [eval, hres, hmem]

@[simp] theorem eval_pure (a : α) : (pure a : Tx α).eval s = (.ok a, s) := rfl

@[simp] theorem eval_get_bind (k : Bytes) (f : Option Record → Tx β) :
    (get k >>= f).eval s = (f (s.get k)).eval s := rfl

@[simp] theorem eval_set_bind (k : Bytes) (v : Record) (f : Unit → Tx β)
    [(f ()).Regular] : (set k v >>= f).eval s = (f ()).eval (s.set k v) :=
  eval_eq_run (s.set k v) (f ()) rfl

@[simp] theorem eval_delete_bind (k : Bytes) (f : Unit → Tx β) [(f ()).Regular] :
    (delete k >>= f).eval s = (f ()).eval (s.delete k) :=
  eval_eq_run (s.delete k) (f ()) rfl

@[simp] theorem eval_failIf_bind (c : Prop) [Decidable c] (e : MetaError) (f : Unit → Tx β) :
    (failIf c e >>= f).eval s = if c then (.error e, s) else (f ()).eval s := by
  by_cases h : c
  · rw [failIf, if_pos h, if_pos h]
    rfl
  · rw [failIf, if_neg h, if_neg h]
    rfl

theorem eval_read_bind {g : MemKV → Except MetaError α} {a : α} (f : α → Tx β)
    (h : g s = .ok a) : (read g >>= f).eval s = (f a).eval s := by
  rw [eval, run_read_bind_ok (TxKV.start s) f h]
  rfl

theorem eval_check_bind {r : Except MetaError α} {a : α} (f : α → Tx β) (h : r = .ok a) :
    (check r >>= f).eval s = (f a).eval s := by
  subst h
  rfl

theorem eval_bind (m : Tx α) (f : α → Tx β) [∀ a, (f a).Regular] :
    (m >>= f).eval s =
      match m.eval s with
      | (.ok a, s') => (f a).eval s'
      | (.error e, s') => (.error e, s') := by
  unfold eval
  rw [run_bind]
  rcases hrun : m.run (TxKV.start s) with ⟨e | a, t⟩
  · rfl
  · exact eval_eq_run t.memKV (f a) rfl

end Tx

/-- What `Apply` does to a store without a persister: the body's effect when
it succeeds, nothing when it fails. -/
theorem applyMem_eq (s : Store) (p : Proposal) :
    applyMem s p =
      match (applyBody p).eval s with
      | (.ok r, s') => (.ok r, s')
      | (.error e, _) => (.error e, s) := by
  have hstore : ∀ e, (apply none s p).result = .error e → (apply none s p).store = s :=
    fun e h => apply_error_store h
  unfold applyMem apply txn Tx.eval at *
  match hrun : (applyBody p).run (TxKV.start s) with
  | (.ok r, t) => rfl
  | (.error e, t) =>
    rw [hrun] at hstore
    exact congrArg (Prod.mk _) (hstore e rfl)

theorem applyMem_cases (s : Store) (p : Proposal) :
    (∃ e, applyMem s p = (.error e, s)) ∨
      ∃ r s', applyMem s p = (.ok r, s') ∧ (applyBody p).eval s = (.ok r, s') := by
  rw [applyMem_eq]
  rcases heval : (applyBody p).eval s with ⟨e | r, s'⟩
  · exact Or.inl ⟨e, rfl⟩
  · exact Or.inr ⟨r, s', rfl, rfl⟩

theorem eval_of_applyMem_eq_ok {s : Store} {p : Proposal} {r : ApplyResult}
    (h : (applyMem s p).1 = .ok r) : (applyBody p).eval s = (.ok r, (applyMem s p).2) := by
  rcases applyMem_cases s p with ⟨e, happly⟩ | ⟨r', s', happly, heval⟩
  · rw [happly] at h
    cases h
  · rw [happly] at h ⊢
    cases h
    exact heval

end Hamster.Meta
