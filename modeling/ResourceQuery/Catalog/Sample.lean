import ResourceQuery.Catalog

set_option autoImplicit false

/-!
# Catalogs: the Northwind sample

Orders, their line items, customers, employees with their territories, and
products.
-/

namespace ResourceQuery.Catalog.Sample

/-- A property that may be null. -/
def optional (name column : String) (type : ColumnType) : Property :=
  ⟨name, some column, type, true⟩

/-- A property that is never null. -/
def required (name column : String) (type : ColumnType) : Property :=
  ⟨name, some column, type, false⟩

/-- A relationship that joins two tables directly. -/
def direct (name : String) (cardinality : Cardinality) (related : String) (keys : List ColumnPair) :
    Relationship :=
  ⟨name, cardinality, related, keys, none⟩

/-- The orders. -/
def orders : Collection where
  name := "orders"
  table := some "Orders"
  properties := [
    required "orderId" "OrderID" .integer,
    optional "customerId" "CustomerID" .string,
    optional "employeeId" "EmployeeID" .integer,
    optional "orderDate" "OrderDate" .timestamp,
    optional "requiredDate" "RequiredDate" .timestamp,
    optional "shippedDate" "ShippedDate" .timestamp,
    optional "shipVia" "ShipVia" .integer,
    optional "freight" "Freight" .decimal,
    optional "shipName" "ShipName" .string,
    optional "shipAddress" "ShipAddress" .string,
    optional "shipCity" "ShipCity" .string,
    optional "shipRegion" "ShipRegion" .string,
    optional "shipPostalCode" "ShipPostalCode" .string,
    optional "shipCountry" "ShipCountry" .string]
  indexes := [
    ⟨"primaryIndex", .primary, ["orderId"]⟩,
    ⟨"customerIndex", .secondary, ["customerId", "orderDate"]⟩,
    ⟨"partitionKey", .partition, ["customerId"]⟩]
  relationships := [
    direct "customer" .manyToOne "customers" [⟨"CustomerID", "CustomerID"⟩],
    direct "employee" .manyToOne "employees" [⟨"EmployeeID", "EmployeeID"⟩],
    direct "orderDetails" .oneToMany "orderDetails" [⟨"OrderID", "OrderID"⟩]]

/-- The line items of the orders. -/
def orderDetails : Collection where
  name := "orderDetails"
  table := some "OrderDetails"
  properties := [
    required "orderId" "OrderID" .integer,
    required "productId" "ProductID" .integer,
    optional "unitPrice" "UnitPrice" .decimal,
    optional "quantity" "Quantity" .integer,
    optional "discount" "Discount" .decimal]
  indexes := [
    ⟨"primaryIndex", .primary, ["orderId", "productId"]⟩]
  relationships := [
    direct "order" .manyToOne "orders" [⟨"OrderID", "OrderID"⟩],
    direct "product" .manyToOne "products" [⟨"ProductID", "ProductID"⟩]]

/-- The customers. -/
def customers : Collection where
  name := "customers"
  table := some "Customers"
  properties := [
    required "customerId" "CustomerID" .string,
    optional "companyName" "CompanyName" .string,
    optional "contactName" "ContactName" .string,
    optional "city" "City" .string,
    optional "country" "Country" .string]
  indexes := [
    ⟨"primaryIndex", .primary, ["customerId"]⟩]
  relationships := [
    direct "orders" .oneToMany "orders" [⟨"CustomerID", "CustomerID"⟩]]

/-- The employees. -/
def employees : Collection where
  name := "employees"
  table := some "Employees"
  properties := [
    required "employeeId" "EmployeeID" .integer,
    optional "lastName" "LastName" .string,
    optional "firstName" "FirstName" .string,
    optional "title" "Title" .string,
    optional "city" "City" .string,
    optional "country" "Country" .string,
    optional "reportsTo" "ReportsTo" .integer]
  indexes := [
    ⟨"primaryIndex", .primary, ["employeeId"]⟩]
  relationships := [
    direct "reportsTo" .manyToOne "employees" [⟨"ReportsTo", "EmployeeID"⟩],
    ⟨"territories", .manyToMany, "territories", [⟨"EmployeeID", "EmployeeID"⟩],
      some ⟨"EmployeeTerritories", [⟨"TerritoryID", "TerritoryID"⟩]⟩⟩]

/-- The sales territories. -/
def territories : Collection where
  name := "territories"
  table := some "Territories"
  properties := [
    required "territoryId" "TerritoryID" .string,
    optional "territoryDescription" "TerritoryDescription" .string,
    optional "regionId" "RegionID" .integer]
  indexes := [
    ⟨"primaryIndex", .primary, ["territoryId"]⟩]
  relationships := []

/-- The products. -/
def products : Collection where
  name := "products"
  table := some "Products"
  properties := [
    required "productId" "ProductID" .integer,
    optional "productName" "ProductName" .string,
    optional "unitPrice" "UnitPrice" .decimal,
    optional "unitsInStock" "UnitsInStock" .integer,
    optional "discontinued" "Discontinued" .boolean]
  indexes := [
    ⟨"primaryIndex", .primary, ["productId"]⟩]
  relationships := []

/-- The sample catalog. -/
def northwind : Catalog :=
  ⟨[orders, orderDetails, customers, employees, territories, products]⟩

end ResourceQuery.Catalog.Sample
