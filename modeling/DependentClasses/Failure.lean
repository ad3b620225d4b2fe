import DependentClasses.Surface.Expr
import DependentClasses.Term.Printer

/-! Why an expression is refused, where, and in the course of which checks. -/
namespace DependentClasses

/-- The kinds of type that an expression may be required to have. -/
inductive Former
  | function
  | implicitFunction
  | pair
  | classType

def Former.text : Former → String
  | .function => "a function type"
  | .implicitFunction => "an implicit function type"
  | .pair => "a pair type"
  | .classType => "a class"

inductive Cause
  | internal (text : String)
  | notInScope (label : Name)
  | typeMismatch (left right : Term)
  | literalMismatch (left right : String)
  | variableMismatch (left right : Name)
  | conversionNotImplemented (type left right : String)
  | missingProperty (label : Name)
  | missingProperties (labels : List Name)
  | unfixedProperty (label : Name)
  | propertyNotFound (label : Name)
  | duplicateProperty (label : Name)
  | unknownProperty (label : Name) (target : Term)
  | extraArgument (target : Term)
  | unificationFailure (left right : Term)
  | occursCheck (x : Name)
  | scopeEscape (x escaped : Name)
  | nonPatternSpine (x : Name)
  | unresolvedPatternVariable (x : Name)
  | expectedFormer (expected : Former) (found : Term)
  | cannotInferFunction
  | cannotInferPair

namespace Cause

def summary : Cause → String
  | .internal text => "internal error: " ++ text
  | .notInScope _ => "variable not in scope"
  | .typeMismatch _ _ => "type mismatch"
  | .literalMismatch _ _ => "literal mismatch"
  | .variableMismatch _ _ => "variable mismatch"
  | .conversionNotImplemented _ _ _ => "conversion not implemented"
  | .missingProperty _ => "missing property"
  | .missingProperties _ => "missing properties"
  | .unfixedProperty _ => "cannot unfix a fulfilled property"
  | .propertyNotFound _ => "property not found in subclass"
  | .duplicateProperty _ => "duplicate property"
  | .unknownProperty _ _ => "unknown property"
  | .extraArgument _ => "too many arguments for a class"
  | .unificationFailure _ _ => "unification failure"
  | .occursCheck _ => "occurs check failure"
  | .scopeEscape _ _ => "solution escapes the scope of its pattern variable"
  | .nonPatternSpine _ => "pattern variable applied to a non-pattern spine"
  | .unresolvedPatternVariable _ => "unresolved pattern variable"
  | .expectedFormer _ _ => "unexpected type former"
  | .cannotInferFunction => "cannot infer the type of an unannotated function"
  | .cannotInferPair => "cannot infer the type of a pair"

def isInternal : Cause → Bool
  | .internal _ => true
  | _ => false

def ticked (x : Name) : String := "`" ++ x.text ++ "`"

def sides (left right : Term) : String := "\n  left:  " ++ left.text ++ "\n  right: " ++ right.text

def text : Cause → String
  | .internal text => "internal error: " ++ text ++ " (this is a bug)"
  | .notInScope label => "elaboration error: " ++ ticked label ++ " is not in scope"
  | .typeMismatch left right => "elaboration error: type mismatch" ++ sides left right
  | .literalMismatch left right =>
    "elaboration error: literal mismatch: \"" ++ left ++ "\" is not \"" ++ right ++ "\""
  | .variableMismatch left right =>
    "elaboration error: variable mismatch: " ++ ticked left ++ " is not " ++ ticked right
  | .conversionNotImplemented type left right =>
    "elaboration error: conversion not implemented for " ++ left ++ " and " ++
      right ++ " at " ++ type
  | .missingProperty label => "elaboration error: missing property " ++ ticked label
  | .missingProperties labels => "elaboration error: missing properties: " ++ Name.texts labels
  | .unfixedProperty label => "elaboration error: cannot unfix fulfilled property " ++ ticked label
  | .propertyNotFound label =>
    "elaboration error: property " ++ ticked label ++ " not found in subclass"
  | .duplicateProperty label => "elaboration error: duplicate property " ++ ticked label
  | .unknownProperty label target =>
    "elaboration error: `" ++ target.text ++ "` has no property " ++ ticked label
  | .extraArgument target =>
    "elaboration error: too many arguments, `" ++ target.text ++ "` has no property left to fulfil"
  | .unificationFailure left right => "elaboration error: cannot unify" ++ sides left right
  | .occursCheck x => "elaboration error: " ++ ticked x ++ " occurs in its own solution"
  | .scopeEscape x escaped =>
    "elaboration error: solution of " ++ ticked x ++ " mentions " ++ ticked escaped
      ++ ", which is out of its scope"
  | .nonPatternSpine x =>
    "elaboration error: " ++ ticked x ++ " is applied to arguments that are not distinct variables"
  | .unresolvedPatternVariable x => "elaboration error: could not solve " ++ ticked x
  | .expectedFormer expected found =>
    "elaboration error: expected " ++ expected.text ++ ", found " ++ found.text
  | .cannotInferFunction =>
    "elaboration error: cannot infer the type of a function without parameter types"
  | .cannotInferPair => "elaboration error: cannot infer the type of a pair"

end Cause

/-- A check in the course of which a failure arose. -/
inductive Frame
  | inclusion (sub super : Term)
  | property (label : Name)
  | equation (index : Nat)

def Frame.text : Frame → String
  | .inclusion sub super => "while checking that " ++ sub.text ++ " is included in " ++ super.text
  | .property label => "in property " ++ Cause.ticked label
  | .equation index => "in equation " ++ toString (index + 1)

structure Failure where
  cause : Cause
  /-- The innermost expression that was refused. -/
  span : Option Span := none
  /-- The checks around the failure, innermost first. -/
  trace : List Frame := []

namespace Failure

/-- Places a failure at `span`, unless it already has a place. -/
def locate (span : Span) (f : Failure) : Failure := { f with span := some (f.span.getD span) }

def within (frame : Frame) (f : Failure) : Failure := { f with trace := f.trace ++ [frame] }

def text (f : Failure) : String :=
  f.trace.foldl (fun s frame => s ++ "\n  " ++ frame.text) f.cause.text

end Failure

end DependentClasses
