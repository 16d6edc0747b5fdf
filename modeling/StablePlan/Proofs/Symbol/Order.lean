import StablePlan.Symbol.Basic

/-!
The order of symbols. Two symbols are equal in it only if they are the same one, so tables can be
looked up by symbols.
-/

namespace StablePlan

namespace Symbol

mutual

theorem eq_of_order : {s t : Symbol} → order s t = .eq → s = t
  | .number _, .number _, h => congrArg Symbol.number (Std.LawfulEqOrd.eq_of_compare h)
  | .string _, .string _, h => congrArg Symbol.string (Std.LawfulEqOrd.eq_of_compare h)
  | .function _ _, .function _ _, h => by
    obtain ⟨hname, hrest⟩ := Ordering.then_eq_eq.mp h
    rw [Std.LawfulEqOrd.eq_of_compare hname, eq_of_orderList hrest]
  | .number _, .string _, h | .number _, .function _ _, h | .string _, .number _, h
  | .string _, .function _ _, h | .function _ _, .number _, h | .function _ _, .string _, h => by
    simp [order] at h

theorem eq_of_orderList : {xs ys : List Symbol} → orderList xs ys = .eq → xs = ys
  | [], [], _ => rfl
  | _ :: _, _ :: _, h => by
    obtain ⟨hfirst, hrest⟩ := Ordering.then_eq_eq.mp h
    rw [eq_of_order hfirst, eq_of_orderList hrest]
  | [], _ :: _, h | _ :: _, [], h => by simp [orderList] at h

end

mutual

theorem order_self : (s : Symbol) → order s s = .eq
  | .number _ => Std.ReflOrd.compare_self
  | .string _ => Std.ReflOrd.compare_self
  | .function _ xs => Ordering.then_eq_eq.mpr ⟨Std.ReflOrd.compare_self, orderList_self xs⟩

theorem orderList_self : (xs : List Symbol) → orderList xs xs = .eq
  | [] => rfl
  | x :: xs => Ordering.then_eq_eq.mpr ⟨order_self x, orderList_self xs⟩

end

instance : Std.LawfulEqOrd Symbol where
  compare_self := order_self _
  eq_of_compare := eq_of_order

end Symbol

end StablePlan
