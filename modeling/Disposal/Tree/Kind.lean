/-!
# Kinds of syntax

The kinds of node of a C# syntax tree that have a part in the analysis, and the fields under which a node holds its
children. Both have the names that the grammar gives them.

* `Kind.name_of_ofName?`, `Field.text_ofText`: names are kept.
-/

namespace Disposal

/-- The kinds of node that the analysis tells apart. -/
inductive Kind where
  | accessorDeclaration
  | accessorList
  | aliasQualifiedName
  | anonymousMethodExpression
  | anonymousObjectCreationExpression
  | anonymousObjectMemberDeclarator
  | argument
  | argumentList
  | arrayCreationExpression
  | arrayType
  | arrowExpressionClause
  | asExpression
  | assignmentExpression
  | attributeUse
  | attributeList
  | awaitExpression
  | baseExpression
  | baseList
  | binaryExpression
  | block
  | booleanLiteral
  | bracketedParameterList
  | breakStatement
  | castExpression
  | catchClause
  | catchDeclaration
  | classDeclaration
  | collectionExpression
  | comment
  | conditionalAccessExpression
  | conditionalExpression
  | constructorDeclaration
  | constructorInitializer
  | continueStatement
  | conversionOperatorDeclaration
  | declarationExpression
  | declarationList
  | declarationPattern
  | destructorDeclaration
  | doStatement
  | elementAccessExpression
  | elementBindingExpression
  | elseClause
  | equalsValueClause
  | eventDeclaration
  | eventFieldDeclaration
  | explicitInterfaceSpecifier
  | expressionStatement
  | fieldDeclaration
  | finallyClause
  | fixedStatement
  | forEachStatement
  | forStatement
  | foreachStatement
  | genericName
  | gotoStatement
  | identifier
  | ifStatement
  | implicitArrayCreationExpression
  | implicitObjectCreationExpression
  | implicitType
  | indexerDeclaration
  | initializerExpression
  | integerLiteral
  | interfaceDeclaration
  | interpolatedStringExpression
  | invocationExpression
  | isPatternExpression
  | lambdaExpression
  | localDeclarationStatement
  | localFunctionStatement
  | lockStatement
  | memberAccessExpression
  | memberBindingExpression
  | methodDeclaration
  | modifier
  | nameColon
  | nullableType
  | objectCreationExpression
  | operatorDeclaration
  | parameter
  | parameterList
  | parenthesizedExpression
  | postfixUnaryExpression
  | predefinedType
  | prefixUnaryExpression
  | propertyDeclaration
  | qualifiedName
  | rawStringLiteral
  | recordDeclaration
  | recordStructDeclaration
  | refType
  | returnStatement
  | scopedType
  | stringLiteral
  | structDeclaration
  | switchBody
  | switchExpression
  | switchExpressionArm
  | switchSection
  | switchStatement
  | thisExpression
  | throwExpression
  | throwStatement
  | tryStatement
  | tupleElement
  | tupleExpression
  | tupleType
  | typeArgumentList
  | typeParameterList
  | usingStatement
  | variableDeclaration
  | variableDeclarator
  | verbatimStringLiteral
  | whileStatement
  | yieldStatement
  deriving DecidableEq, Repr

namespace Kind

def all : List Kind :=
  [accessorDeclaration, accessorList, aliasQualifiedName, anonymousMethodExpression,
   anonymousObjectCreationExpression, anonymousObjectMemberDeclarator, argument, argumentList,
   arrayCreationExpression, arrayType, arrowExpressionClause, asExpression, assignmentExpression, attributeUse,
   attributeList, awaitExpression, baseExpression, baseList, binaryExpression, block, booleanLiteral,
   bracketedParameterList, breakStatement, castExpression, catchClause, catchDeclaration, classDeclaration,
   collectionExpression, comment, conditionalAccessExpression, conditionalExpression, constructorDeclaration,
   constructorInitializer, continueStatement, conversionOperatorDeclaration, declarationExpression, declarationList,
   declarationPattern, destructorDeclaration, doStatement, elementAccessExpression, elementBindingExpression,
   elseClause, equalsValueClause, eventDeclaration, eventFieldDeclaration, explicitInterfaceSpecifier,
   expressionStatement, fieldDeclaration, finallyClause, fixedStatement, forEachStatement, forStatement,
   foreachStatement, genericName, gotoStatement, identifier, ifStatement, implicitArrayCreationExpression,
   implicitObjectCreationExpression, implicitType, indexerDeclaration, initializerExpression, integerLiteral,
   interfaceDeclaration, interpolatedStringExpression, invocationExpression, isPatternExpression, lambdaExpression,
   localDeclarationStatement, localFunctionStatement, lockStatement, memberAccessExpression,
   memberBindingExpression, methodDeclaration, modifier, nameColon, nullableType, objectCreationExpression,
   operatorDeclaration, parameter, parameterList, parenthesizedExpression, postfixUnaryExpression, predefinedType,
   prefixUnaryExpression, propertyDeclaration, qualifiedName, rawStringLiteral, recordDeclaration,
   recordStructDeclaration, refType, returnStatement, scopedType, stringLiteral, structDeclaration, switchBody,
   switchExpression, switchExpressionArm, switchSection, switchStatement, thisExpression, throwExpression,
   throwStatement, tryStatement, tupleElement, tupleExpression, tupleType, typeArgumentList, typeParameterList,
   usingStatement, variableDeclaration, variableDeclarator, verbatimStringLiteral, whileStatement, yieldStatement]

/-- The name of a kind in the grammar. -/
def name : Kind → String
  | accessorDeclaration => "accessor_declaration"
  | accessorList => "accessor_list"
  | aliasQualifiedName => "alias_qualified_name"
  | anonymousMethodExpression => "anonymous_method_expression"
  | anonymousObjectCreationExpression => "anonymous_object_creation_expression"
  | anonymousObjectMemberDeclarator => "anonymous_object_member_declarator"
  | argument => "argument"
  | argumentList => "argument_list"
  | arrayCreationExpression => "array_creation_expression"
  | arrayType => "array_type"
  | arrowExpressionClause => "arrow_expression_clause"
  | asExpression => "as_expression"
  | assignmentExpression => "assignment_expression"
  | attributeUse => "attribute"
  | attributeList => "attribute_list"
  | awaitExpression => "await_expression"
  | baseExpression => "base_expression"
  | baseList => "base_list"
  | binaryExpression => "binary_expression"
  | block => "block"
  | booleanLiteral => "boolean_literal"
  | bracketedParameterList => "bracketed_parameter_list"
  | breakStatement => "break_statement"
  | castExpression => "cast_expression"
  | catchClause => "catch_clause"
  | catchDeclaration => "catch_declaration"
  | classDeclaration => "class_declaration"
  | collectionExpression => "collection_expression"
  | comment => "comment"
  | conditionalAccessExpression => "conditional_access_expression"
  | conditionalExpression => "conditional_expression"
  | constructorDeclaration => "constructor_declaration"
  | constructorInitializer => "constructor_initializer"
  | continueStatement => "continue_statement"
  | conversionOperatorDeclaration => "conversion_operator_declaration"
  | declarationExpression => "declaration_expression"
  | declarationList => "declaration_list"
  | declarationPattern => "declaration_pattern"
  | destructorDeclaration => "destructor_declaration"
  | doStatement => "do_statement"
  | elementAccessExpression => "element_access_expression"
  | elementBindingExpression => "element_binding_expression"
  | elseClause => "else_clause"
  | equalsValueClause => "equals_value_clause"
  | eventDeclaration => "event_declaration"
  | eventFieldDeclaration => "event_field_declaration"
  | explicitInterfaceSpecifier => "explicit_interface_specifier"
  | expressionStatement => "expression_statement"
  | fieldDeclaration => "field_declaration"
  | finallyClause => "finally_clause"
  | fixedStatement => "fixed_statement"
  | forEachStatement => "for_each_statement"
  | forStatement => "for_statement"
  | foreachStatement => "foreach_statement"
  | genericName => "generic_name"
  | gotoStatement => "goto_statement"
  | identifier => "identifier"
  | ifStatement => "if_statement"
  | implicitArrayCreationExpression => "implicit_array_creation_expression"
  | implicitObjectCreationExpression => "implicit_object_creation_expression"
  | implicitType => "implicit_type"
  | indexerDeclaration => "indexer_declaration"
  | initializerExpression => "initializer_expression"
  | integerLiteral => "integer_literal"
  | interfaceDeclaration => "interface_declaration"
  | interpolatedStringExpression => "interpolated_string_expression"
  | invocationExpression => "invocation_expression"
  | isPatternExpression => "is_pattern_expression"
  | lambdaExpression => "lambda_expression"
  | localDeclarationStatement => "local_declaration_statement"
  | localFunctionStatement => "local_function_statement"
  | lockStatement => "lock_statement"
  | memberAccessExpression => "member_access_expression"
  | memberBindingExpression => "member_binding_expression"
  | methodDeclaration => "method_declaration"
  | modifier => "modifier"
  | nameColon => "name_colon"
  | nullableType => "nullable_type"
  | objectCreationExpression => "object_creation_expression"
  | operatorDeclaration => "operator_declaration"
  | parameter => "parameter"
  | parameterList => "parameter_list"
  | parenthesizedExpression => "parenthesized_expression"
  | postfixUnaryExpression => "postfix_unary_expression"
  | predefinedType => "predefined_type"
  | prefixUnaryExpression => "prefix_unary_expression"
  | propertyDeclaration => "property_declaration"
  | qualifiedName => "qualified_name"
  | rawStringLiteral => "raw_string_literal"
  | recordDeclaration => "record_declaration"
  | recordStructDeclaration => "record_struct_declaration"
  | refType => "ref_type"
  | returnStatement => "return_statement"
  | scopedType => "scoped_type"
  | stringLiteral => "string_literal"
  | structDeclaration => "struct_declaration"
  | switchBody => "switch_body"
  | switchExpression => "switch_expression"
  | switchExpressionArm => "switch_expression_arm"
  | switchSection => "switch_section"
  | switchStatement => "switch_statement"
  | thisExpression => "this_expression"
  | throwExpression => "throw_expression"
  | throwStatement => "throw_statement"
  | tryStatement => "try_statement"
  | tupleElement => "tuple_element"
  | tupleExpression => "tuple_expression"
  | tupleType => "tuple_type"
  | typeArgumentList => "type_argument_list"
  | typeParameterList => "type_parameter_list"
  | usingStatement => "using_statement"
  | variableDeclaration => "variable_declaration"
  | variableDeclarator => "variable_declarator"
  | verbatimStringLiteral => "verbatim_string_literal"
  | whileStatement => "while_statement"
  | yieldStatement => "yield_statement"

/-- The kind with a name. -/
def ofName? (text : String) : Option Kind :=
  all.find? (·.name == text)

theorem name_of_ofName? {text : String} {k : Kind} (h : ofName? text = some k) : k.name = text := by
  simpa using List.find?_some h

end Kind

/-- The part that a child plays for its parent. -/
inductive Field where
  | accessors
  | alternative
  | arguments
  | bases
  | body
  | condition
  | consequence
  | expression
  | function
  | left
  | name
  | parameters
  | returns
  | right
  | type
  | value
  | other (text : String)
  deriving DecidableEq, Repr

namespace Field

/-- The name of a field in the grammar. -/
def text : Field → String
  | accessors => "accessors"
  | alternative => "alternative"
  | arguments => "arguments"
  | bases => "bases"
  | body => "body"
  | condition => "condition"
  | consequence => "consequence"
  | expression => "expression"
  | function => "function"
  | left => "left"
  | name => "name"
  | parameters => "parameters"
  | returns => "returns"
  | right => "right"
  | type => "type"
  | value => "value"
  | other text => text

/-- The field with a name. -/
def ofText : String → Field
  | "accessors" => accessors
  | "alternative" => alternative
  | "arguments" => arguments
  | "bases" => bases
  | "body" => body
  | "condition" => condition
  | "consequence" => consequence
  | "expression" => expression
  | "function" => function
  | "left" => left
  | "name" => name
  | "parameters" => parameters
  | "returns" => returns
  | "right" => right
  | "type" => type
  | "value" => value
  | text => other text

theorem text_ofText (word : String) : (ofText word).text = word := by
  unfold ofText
  split <;> rfl

end Field

end Disposal
